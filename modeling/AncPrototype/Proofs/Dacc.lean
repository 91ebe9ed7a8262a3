/-
Which words reach the converter.

`ADC_Handler` asks for TXRDY once and writes twice, so the second write rests on
whatever room there is beyond the place the first one takes.  There is always enough,
but for one level: with all places but one taken, TXRDY reads as set, the first word
fills the FIFO, and the second is lost unless the converter has taken a word out in
the meantime.

The level follows the words: every word accepted is in the FIFO or has been
converted, whatever programs run (`fifo_boardRun`).  `Driving` is this for the second half
of an invocation, counted from its reading of the status.
-/
import AncPrototype.Model.Dacc
import AncPrototype.Proofs.Handler

namespace Anc

open DeviceProgram

/-- An access on a board. -/
abbrev BoardAccess (α : Type) := HandlerOp × Board α

/-- A word written to `DACC_CDR`, and the board it is written on. -/
structure CdrWrite (α : Type) where
  word : UInt32 × UInt32
  board : Board α

variable {α : Type}

/-! ### What is written -/

def BoardAccess.written (a : BoardAccess α) : Option (CdrWrite α) :=
  match a.1 with
  | .write data => some ⟨(a.2.machine.userSel, data), a.2⟩
  | _ => none

/-- The writes among accesses, in order. -/
def cdrWrites (h : List (BoardAccess α)) : List (CdrWrite α) := h.filterMap BoardAccess.written

def BoardAccess.status (a : BoardAccess α) : Option (Board α) :=
  match a.1 with
  | .daccStatus => some a.2
  | _ => none

/-- The board on which an invocation has read the status. -/
def statusRead (tr : List (BoardAccess α)) : Option (Board α) := tr.findSome? BoardAccess.status

/-- The FIFO has a place for the word. -/
def CdrWrite.Accepted (capacity : Nat) (w : CdrWrite α) : Prop := w.board.fifo.length < capacity

instance (capacity : Nat) (w : CdrWrite α) : Decidable (w.Accepted capacity) :=
  inferInstanceAs (Decidable (_ < _))

/-- If one place was free on `s`, a conversion has made room by the time of the second write. -/
def InTime (capacity : Nat) (s : Board α) (ws : List (CdrWrite α)) : Prop :=
  ∀ w, ws[1]? = some w → s.fifo.length + 1 = capacity →
    s.converted.length < w.board.converted.length

/-- The writes of an invocation are in time for the status it has read. -/
def Timely (capacity : Nat) (tr : List (BoardAccess α)) : Prop :=
  ∀ s, statusRead tr = some s → InTime capacity s (cdrWrites tr)

theorem cdrWrites_append (h h' : List (BoardAccess α)) :
    cdrWrites (h ++ h') = cdrWrites h ++ cdrWrites h' := List.filterMap_append

theorem statusRead_append (tr tr' : List (BoardAccess α)) :
    statusRead (tr ++ tr') = (statusRead tr).or (statusRead tr') := List.findSome?_append

/-- The access neither asks the converter for its status nor sets or writes anything in it. -/
def HandlerOp.LeavesDacc : HandlerOp → Prop
  | daccStatus => False
  | select _ => False
  | write _ => False
  | _ => True

/-! ### The level of the FIFO -/

namespace Board

/-- A conversion moves the oldest word. -/
theorem converted_append_fifo (b : Board α) :
    b.convert.converted ++ b.convert.fifo = b.converted ++ b.fifo := by
  unfold Board.convert
  cases hfifo : b.fifo with
  | nil => rw [hfifo]
  | cons word fifo => exact List.append_assoc ..

theorem length_converted_le (b : Board α) :
    b.converted.length ≤ b.convert.converted.length := by
  unfold Board.convert
  cases b.fifo with
  | nil => exact Nat.le_refl _
  | cons word fifo => exact (List.prefix_append ..).length_le

theorem machine_convert (b : Board α) : b.convert.machine = b.machine := by
  unfold Board.convert
  cases b.fifo <;> rfl

/-- Every word has its place. -/
theorem length_add_of_append {b b' : Board α}
    (h : b'.converted ++ b'.fifo = b.converted ++ b.fifo) :
    b'.fifo.length + b'.converted.length = b.fifo.length + b.converted.length := by
  have hlen := congrArg List.length h
  rw [List.length_append, List.length_append] at hlen
  omega

variable [FloatArith α] (capacity : Nat)

/-- No event can break it. -/
abbrev Stable (P : Board α → Prop) : Prop :=
  Device.Stable (boardDevice capacity : Device HandlerOp HandlerOp.Resp (Board α) BoardEvent) P

/-- Only a write changes the FIFO. -/
theorem exec_of_not_write {o : HandlerOp} (ho : ∀ data, o ≠ .write data) (b : Board α) :
    BoardAccess.written (o, b) = none ∧ (exec capacity o b).2.fifo = b.fifo ∧
      (exec capacity o b).2.converted = b.converted := by
  cases o with
  | write data => exact absurd rfl (ho data)
  | _ => exact ⟨rfl, rfl, rfl⟩

theorem exec_of_leavesDacc {o : HandlerOp} (ho : o.LeavesDacc) (b : Board α) :
    (∀ data, o ≠ .write data) ∧ BoardAccess.status (o, b) = none ∧
      (exec capacity o b).2.machine.userSel = b.machine.userSel := by
  cases o with
  | daccStatus => exact ho.elim
  | select c => exact ho.elim
  | write data => exact ho.elim
  | _ => exact ⟨by simp, rfl, rfl⟩

/-- A write that is accepted adds its word, any other adds nothing. -/
theorem exec_write (data : UInt32) (b : Board α) :
    (exec capacity (.write data) b).2.converted = b.converted ∧
      (exec capacity (.write data) b).2.fifo
        = if b.fifo.length < capacity then b.fifo ++ [(b.machine.userSel, data)] else b.fifo := by
  show (push ..).converted = _ ∧ (push ..).fifo = _
  unfold push
  split_ifs <;> exact ⟨rfl, rfl⟩

end Board

theorem cdrWrites_snoc_of_none (h : List (BoardAccess α)) {a : BoardAccess α}
    (ha : a.written = none) : cdrWrites (h ++ [a]) = cdrWrites h := by
  have hnil : cdrWrites [a] = [] := List.filterMap_eq_nil_iff.mpr (by simpa using ha)
  rw [cdrWrites_append, hnil, List.append_nil]

variable {capacity : Nat}

/-- The words that have found a place. -/
def acceptedWords (capacity : Nat) (h : List (BoardAccess α)) : List (UInt32 × UInt32) :=
  ((cdrWrites h).filter fun w => w.Accepted capacity).map CdrWrite.word

/-! ### The second half of an invocation -/

/-- Since the status was read on `s`, the writes have been accepted exactly if they are in time. -/
def Settles (capacity : Nat) (s : Board α) (ws : List (CdrWrite α)) : Prop :=
  (∀ w ∈ ws, w.Accepted capacity) ↔ InTime capacity s ws

/-- The second half of an invocation that has read the status as set on `s`, has made the writes
`ws` and has channel `c` selected. -/
structure Driving (capacity : Nat) (s : Board α) (ws : List (CdrWrite α)) (c : UInt32)
    (tr : List (BoardAccess α)) (b : Board α) : Prop where
  status : statusRead tr = some s
  ready : s.fifo.length < capacity
  writes : cdrWrites tr = ws
  settles : Settles capacity s ws
  selected : b.machine.userSel = c
  since : s.converted.length ≤ b.converted.length
  /-- A word accepted since then is in the FIFO or has been converted. -/
  level : (∀ w ∈ ws, w.Accepted capacity) →
    b.fifo.length + b.converted.length = s.fifo.length + s.converted.length + ws.length

/-- The writes of a trace are all accepted exactly if they are in time. -/
def Exact (capacity : Nat) (tr : List (BoardAccess α)) : Prop :=
  (∀ w ∈ cdrWrites tr, w.Accepted capacity) ↔ Timely capacity tr

theorem exact_of_no_write {tr : List (BoardAccess α)} (h : cdrWrites tr = []) :
    Exact capacity tr := by
  unfold Exact Timely InTime
  rw [h]
  simp

namespace Driving

variable {s : Board α} {ws : List (CdrWrite α)} {c : UInt32} {tr : List (BoardAccess α)}
  {b : Board α}

theorem exact (h : Driving capacity s ws c tr b) : Exact capacity tr := by
  unfold Exact Timely
  rw [h.writes, h.status]
  refine h.settles.trans ⟨fun hsecond s' hs => ?_, fun hsecond => hsecond s rfl⟩
  obtain rfl := Option.some.inj hs
  exact hsecond

/-- The first word of the two has the place that TXRDY promises. -/
theorem room (h : Driving capacity s [] c tr b) : b.fifo.length < capacity := by
  have hlevel := h.level (by simp)
  have hready := h.ready
  have hsince := h.since
  rw [List.length_nil] at hlevel
  omega

theorem first (h : Driving capacity s [] c tr b) (data : UInt32) :
    Settles capacity s [⟨(c, data), b⟩] := by
  simp [Settles, InTime, CdrWrite.Accepted, h.room]

/-- The second word has one unless the first took the last. -/
theorem second {w : CdrWrite α} (h : Driving capacity s [w] c tr b) (hw : w.Accepted capacity)
    (data : UInt32) : Settles capacity s [w, ⟨(c, data), b⟩] := by
  have hlevel := h.level (by simpa using hw)
  have hready := h.ready
  have hsince := h.since
  rw [List.length_singleton] at hlevel
  have hroom : b.fifo.length < capacity ↔
      (s.fifo.length + 1 = capacity → s.converted.length < b.converted.length) := by
    omega
  have hall : (∀ w' ∈ [w, ⟨(c, data), b⟩], w'.Accepted capacity) ↔ b.fifo.length < capacity := by
    simpa [CdrWrite.Accepted] using fun _ => hw
  unfold Settles InTime
  rw [hall, hroom]
  simp

end Driving

variable [FloatArith α]

/-- **The FIFO holds what has been accepted and not yet converted**, in the order of the writes. -/
theorem fifo_boardRun (u : PowerUp) (as : List (Action BoardEvent (Fin numChannels → UInt16))) :
    let n : Node _ _ (Board α) _ _ := boardRun capacity u as
    n.state.converted ++ n.state.fifo = acceptedWords capacity n.history := by
  refine Host.run_history (J := fun h b => b.converted ++ b.fifo = acceptedWords capacity h)
    ?_ ?_ as rfl
  · intro h e b hb
    cases e with
    | machine e => exact hb
    | dacConversion => exact b.converted_append_fifo.trans hb
  · intro h o b hb
    show (Board.exec capacity o b).2.converted ++ (Board.exec capacity o b).2.fifo = _
    by_cases ho : ∃ data, o = .write data
    · obtain ⟨data, rfl⟩ := ho
      obtain ⟨hconverted, hfifo⟩ := Board.exec_write capacity data b
      have hwrites : cdrWrites (h ++ [(HandlerOp.write data, b)])
          = cdrWrites h ++ [⟨(b.machine.userSel, data), b⟩] := cdrWrites_append ..
      unfold acceptedWords at hb ⊢
      rw [hconverted, hfifo, hwrites, List.filter_append, List.map_append, ← hb]
      by_cases hroom : b.fifo.length < capacity
      · rw [if_pos hroom, List.filter_singleton, ← List.append_assoc]
        simp [CdrWrite.Accepted, hroom]
      · rw [if_neg hroom]
        simp [CdrWrite.Accepted, hroom]
    · obtain ⟨hwritten, hfifo, hconverted⟩ :=
        Board.exec_of_not_write capacity (fun data heq => ho ⟨data, heq⟩) b
      unfold acceptedWords
      rw [hconverted, hfifo, cdrWrites_snoc_of_none h hwritten]
      exact hb

/-- What an invocation puts out: nothing, or a sample on channel 0 and its prediction on
channel 1. -/
def PutsOut (tr : List (BoardAccess α)) : Prop :=
  cdrWrites tr = [] ∨ ∃ noise old b, (.predict old, b) ∈ tr ∧
    (cdrWrites tr).map CdrWrite.word
      = [(0, noise), (1, (ancPredict b.machine.fxlms old).1.toInt16.toInt32.toUInt32)]

/-! ### The handler -/

/-- Every access of `p` is made after an exact trace, and `p` ends in `Q`. -/
abbrev DaccSat {B : Type} (capacity : Nat) (Q : List (BoardAccess α) → B → Board α → Prop)
    (p : HandlerProg B) (tr : List (BoardAccess α)) (b : Board α) : Prop :=
  (boardDevice capacity).Sat (fun tr _ _ => Exact capacity tr) Q p tr b

namespace Driving

variable {s : Board α} {ws : List (CdrWrite α)} {c : UInt32} {tr : List (BoardAccess α)}
  {b : Board α} {B : Type} {Q : List (BoardAccess α) → B → Board α → Prop}

theorem stable (ws : List (CdrWrite α)) (c : UInt32) (tr : List (BoardAccess α)) :
    Board.Stable capacity fun b : Board α => Driving capacity s ws c tr b := by
  intro e b h
  cases e with
  | machine e => exact ⟨h.status, h.ready, h.writes, h.settles, by cases e <;> exact h.selected,
      h.since, h.level⟩
  | dacConversion =>
      refine ⟨h.status, h.ready, h.writes, h.settles, ?_,
        Nat.le_trans h.since b.length_converted_le, fun hall => ?_⟩
      · exact (congrArg Machine.userSel b.machine_convert).trans h.selected
      · exact (Board.length_add_of_append b.converted_append_fifo).trans (h.level hall)

/-- An access that has nothing to do with the converter. -/
theorem aside (h : Driving capacity s ws c tr b) {o : HandlerOp} (ho : o.LeavesDacc)
    {k : o.Resp → HandlerProg B}
    (hk : ∀ t, Driving capacity s ws c (tr ++ [(o, t)]) (Board.exec capacity o t).2 →
      DaccSat capacity Q (k (Board.exec capacity o t).1) (tr ++ [(o, t)])
        (Board.exec capacity o t).2) :
    DaccSat capacity Q (.step o k) tr b := by
  refine Device.Sat.access (stable ws c tr) h fun t ht => ⟨ht.exact, hk t ?_⟩
  obtain ⟨hwrite, hstatus, hsel⟩ := Board.exec_of_leavesDacc capacity ho t
  obtain ⟨hwritten, hfifo, hconverted⟩ := Board.exec_of_not_write capacity hwrite t
  refine ⟨?_, ht.ready, ?_, ht.settles, hsel.trans ht.selected, ?_, ?_⟩
  · rw [statusRead_append, ht.status]
    rfl
  · rw [cdrWrites_snoc_of_none tr hwritten]
    exact ht.writes
  · rw [hconverted]
    exact ht.since
  · rw [hfifo, hconverted]
    exact ht.level

theorem select (h : Driving capacity s ws c tr b) {c' : UInt32} {k : Unit → HandlerProg B}
    (hk : ∀ t, Driving capacity s ws c' (tr ++ [(.select c', t)])
        (Board.exec capacity (.select c') t).2 →
      DaccSat capacity Q (k ()) (tr ++ [(.select c', t)])
        (Board.exec capacity (.select c') t).2) :
    DaccSat capacity Q (.step (.select c') k) tr b := by
  refine Device.Sat.access (stable ws c tr) h fun t ht => ⟨ht.exact, hk t ?_⟩
  refine ⟨?_, ht.ready, ?_, ht.settles, rfl, ht.since, ht.level⟩
  · rw [statusRead_append, ht.status]
    rfl
  · rw [cdrWrites_snoc_of_none tr rfl]
    exact ht.writes

theorem write (h : Driving capacity s ws c tr b) {data : UInt32} {k : Unit → HandlerProg B}
    (hw : ∀ t, Driving capacity s ws c tr t → Settles capacity s (ws ++ [⟨(c, data), t⟩]))
    (hk : ∀ t, Driving capacity s ws c tr t →
      Driving capacity s (ws ++ [⟨(c, data), t⟩]) c (tr ++ [(.write data, t)])
        (Board.exec capacity (.write data) t).2 →
      DaccSat capacity Q (k ()) (tr ++ [(.write data, t)])
        (Board.exec capacity (.write data) t).2) :
    DaccSat capacity Q (.step (.write data) k) tr b := by
  refine Device.Sat.access (stable ws c tr) h fun t ht => ⟨ht.exact, hk t ht ?_⟩
  obtain ⟨hconverted, hfifo⟩ := Board.exec_write capacity data t
  have hsel : (Board.exec capacity (.write data) t).2.machine.userSel = t.machine.userSel := by
    show (Board.push ..).machine.userSel = _
    unfold Board.push
    split_ifs <;> rfl
  refine ⟨?_, ht.ready, ?_, hw t ht, hsel.trans ht.selected, ?_, fun hall => ?_⟩
  · rw [statusRead_append, ht.status]
    rfl
  · rw [cdrWrites_append, ht.writes, ← ht.selected]
    rfl
  · rw [hconverted]
    exact ht.since
  · have hroom : t.fifo.length < capacity := hall ⟨(c, data), t⟩ (by simp)
    have hlevel := ht.level fun w hw => hall w (List.mem_append_left _ hw)
    rw [hconverted, hfifo, if_pos hroom, List.length_append, List.length_append,
      List.length_singleton, List.length_singleton]
    omega

end Driving

omit [FloatArith α] in
/-- The status of a FIFO with a free place reads as ready. -/
theorem daccIsr_and_txrdy (b : Board α) :
    (b.daccIsr capacity).toUInt16 &&& daccIsrTxrdy = daccIsrTxrdy ↔ b.fifo.length < capacity := by
  have hset : ∀ x : UInt32, (x ||| daccIsrTxrdy.toUInt32).toUInt16 &&& daccIsrTxrdy
      = daccIsrTxrdy := by
    intro x
    rw [UInt32.toUInt16_or, UInt16.toUInt16_toUInt32, ← UInt16.toBitVec_inj]
    ext i
    simp only [UInt16.toBitVec_and, UInt16.toBitVec_or, BitVec.getElem_and, BitVec.getElem_or]
    cases x.toUInt16.toBitVec[i] <;> cases daccIsrTxrdy.toBitVec[i] <;> rfl
  have hclear : ∀ x : UInt32, (x &&& ~~~daccIsrTxrdy.toUInt32).toUInt16 &&& daccIsrTxrdy = 0 := by
    intro x
    rw [UInt32.toUInt16_and, UInt32.toUInt16_not, UInt16.toUInt16_toUInt32, UInt16.and_assoc,
      UInt16.not_and_self, UInt16.and_zero]
  unfold Board.daccIsr
  by_cases hroom : b.fifo.length < capacity
  · rw [if_pos hroom, hset]
    exact iff_of_true rfl hroom
  · rw [if_neg hroom, hclear]
    exact iff_of_false (by decide) hroom

/-- **The second half of the handler, once TXRDY is seen.** -/
theorem drive_exact {s b : Board α} {c : UInt32} {tr : List (BoardAccess α)}
    (h : Driving capacity s [] c tr b) :
    DaccSat capacity (fun tr _ _ => Exact capacity tr ∧ PutsOut tr) drive tr b := by
  refine h.aside (by trivial) fun t₁ h₁ => ?_
  refine h₁.aside (by trivial) fun t₂ h₂ => ?_
  refine h₂.aside (by trivial) fun t₃ h₃ => ?_
  refine h₃.aside (by trivial) fun t₄ h₄ => ?_
  refine h₄.select fun t₅ h₅ => ?_
  refine h₅.aside (by trivial) fun t₆ h₆ => ?_
  refine h₆.write (fun t ht => ht.first _) fun t₇ ht₇ h₇ => ?_
  refine h₇.select fun t₈ h₈ => ?_
  refine h₈.write (fun t ht => ht.second ht₇.room _) fun t₉ ht₉ h₉ => ?_
  refine h₉.aside (by trivial) fun t₁₀ h₁₀ => ?_
  refine h₁₀.aside (by trivial) fun t₁₁ h₁₁ => ?_
  refine Device.Sat.ret (Driving.stable _ _ _) h₁₁ fun t ht => ⟨ht.exact, .inr ?_⟩
  refine ⟨_, _, t₂, ?_, congrArg (List.map CdrWrite.word) ht.writes⟩
  simp

/-- Before it asks for the status, an invocation writes nothing. -/
structure Unasked (tr : List (BoardAccess α)) : Prop where
  status : statusRead tr = none
  writes : cdrWrites tr = []

theorem Unasked.bind {B C : Type} {p : HandlerProg B} {f : B → HandlerProg C}
    {Q : List (BoardAccess α) → C → Board α → Prop} {tr : List (BoardAccess α)} {b : Board α}
    (h : Unasked tr) (hp : p.Only HandlerOp.LeavesDacc)
    (hf : ∀ tr a b, Unasked tr → DaccSat capacity Q (f a) tr b) :
    DaccSat capacity Q (p >>= f) tr b := by
  refine Device.Sat.bind_only (J := fun tr _ => Unasked tr) hp (fun _ _ _ hJ => hJ) ?_
    (fun tr _ _ hJ => exact_of_no_write hJ.writes) h hf
  intro tr o b ho hJ
  obtain ⟨hwrite, hstatus, -⟩ := Board.exec_of_leavesDacc capacity ho b
  obtain ⟨hwritten, -⟩ := Board.exec_of_not_write capacity hwrite b
  refine ⟨?_, ?_⟩
  · rw [statusRead_append, hJ.status]
    show statusRead [(o, b)] = none
    simp [statusRead, hstatus]
  · rw [cdrWrites_snoc_of_none tr hwritten]
    exact hJ.writes

theorem driveIfReady_exact {tr : List (BoardAccess α)} (h : Unasked tr) (b : Board α) :
    DaccSat capacity (fun tr _ _ => Exact capacity tr ∧ PutsOut tr) driveIfReady tr b := by
  refine Device.Sat.access (P := fun _ => True) (fun _ _ _ => trivial) trivial fun t _ =>
    ⟨exact_of_no_write h.writes, ?_⟩
  have hwrites : cdrWrites (tr ++ [(HandlerOp.daccStatus, t)]) = [] := by
    rw [cdrWrites_snoc_of_none tr rfl]
    exact h.writes
  show DaccSat capacity _ (if (t.daccIsr capacity).toUInt16 &&& daccIsrTxrdy = daccIsrTxrdy
    then drive else pure ()) _ t
  simp only [daccIsr_and_txrdy]
  by_cases hroom : t.fifo.length < capacity
  · rw [if_pos hroom]
    refine drive_exact (s := t) (c := t.machine.userSel) ⟨?_, hroom, hwrites, ?_, rfl,
      Nat.le_refl _, fun _ => rfl⟩
    · rw [statusRead_append, h.status]
      rfl
    · simp [Settles, InTime]
  · rw [if_neg hroom]
    exact fun es => ⟨exact_of_no_write hwrites, .inl hwrites⟩

/-- **One invocation**, under any conversions of either kind. -/
theorem adcHandler_exact (contents : Fin numChannels → UInt16) (b : Board α) :
    DaccSat capacity (fun tr _ _ => Exact capacity tr ∧ PutsOut tr) (adcHandler contents) [] b := by
  have hdeclare : (HandlerProg.declare contents).Only HandlerOp.LeavesDacc :=
    ⟨trivial, fun _ => trivial⟩
  refine Unasked.bind ⟨rfl, rfl⟩ hdeclare fun tr temp b' h => ?_
  have hcapture : (captureIfFull temp).Only HandlerOp.LeavesDacc :=
    captureIfFull_only trivial (fun _ => trivial) (fun _ => trivial) (fun _ _ => trivial)
      fun _ _ => trivial
  exact h.bind hcapture fun tr' _ b'' h' => driveIfReady_exact h' b''

/-! ### Runs -/

/-- An invocation that has returned on a board. -/
abbrev BoardReturn (α : Type) := Finished HandlerOp (Board α) (Fin numChannels → UInt16) Unit

/-- Every invocation has been exact and has put out a pair or nothing. -/
def Served (capacity : Nat) (fs : List (BoardReturn α)) : Prop :=
  ∀ f ∈ fs, Exact capacity f.accesses ∧ PutsOut f.accesses

theorem served_snoc {fs : List (BoardReturn α)} {f : BoardReturn α} :
    Served capacity (fs ++ [f])
      ↔ Served capacity fs ∧ Exact capacity f.accesses ∧ PutsOut f.accesses :=
  List.forall_mem_append.trans (and_congr_right' List.forall_mem_singleton)

theorem boardRun_ok (capacity : Nat) (u : PowerUp)
    (as : List (Action BoardEvent (Fin numChannels → UInt16))) :
    Host.Ok (boardHost (α := α) capacity) (fun fs _ => Served capacity fs)
      (fun fs _ tr _ _ => Served capacity fs ∧ Exact capacity tr) (boardRun capacity u as) := by
  refine Host.run_ok (fun _ _ _ hfs => hfs) ?_ as (fun f hf => absurd hf List.not_mem_nil)
  intro fs contents b hfs
  exact Device.Sat.mono (fun _ _ _ hG => ⟨hfs, hG⟩) (fun _ _ _ hQ => served_snoc.mpr ⟨hfs, hQ⟩) _
    (adcHandler_exact contents b)

/-- At every moment of a run. -/
theorem exact_boardRun (capacity : Nat) (u : PowerUp)
    (as : List (Action BoardEvent (Fin numChannels → UInt16))) :
    let n : Node _ _ (Board α) _ _ := boardRun capacity u as
    (∀ tr ∈ n.traces, Exact capacity tr) ∧ (n.active = none → ∀ tr ∈ n.traces, PutsOut tr) := by
  intro n
  have hreturned : ∀ {fs : List (BoardReturn α)}, Served capacity fs →
      ∀ tr ∈ fs.map Finished.accesses, Exact capacity tr ∧ PutsOut tr := by
    intro fs hfs tr htr
    obtain ⟨f, hf, rfl⟩ := List.mem_map.mp htr
    exact hfs f hf
  have hactive : ∀ {p}, n.active = some p → Served capacity n.finished → Exact capacity p.accesses →
      (∀ tr ∈ n.traces, Exact capacity tr) ∧ (n.active = none → ∀ tr ∈ n.traces, PutsOut tr) := by
    intro p ha hfs hp
    refine ⟨fun tr htr => ?_, fun hnone => by simp [hnone] at ha⟩
    simp only [Node.traces, ha, Option.map_some, Option.toList_some, List.mem_append,
      List.mem_singleton] at htr
    rcases htr with htr | rfl
    · exact (hreturned hfs tr htr).1
    · exact hp
  rcases (boardRun_ok (α := α) capacity u as).moments with
    ⟨ha, hfs⟩ | ⟨c, tr, r, ha, hfs⟩ | ⟨c, tr, o, k, ha, hfs, htr⟩
  · have htraces : n.traces = n.finished.map Finished.accesses := by simp [Node.traces, n, ha]
    rw [htraces]
    exact ⟨fun tr htr => (hreturned hfs tr htr).1, fun _ tr htr => (hreturned hfs tr htr).2⟩
  · exact hactive ha (served_snoc.mp hfs).1 (served_snoc.mp hfs).2.1
  · exact hactive ha hfs htr

/-- **When no word written to the converter is lost**: as long as every invocation that has read
TXRDY with one free place is followed by a conversion before its second write. -/
theorem dac_words_accepted_iff (capacity : Nat) (u : PowerUp)
    (as : List (Action BoardEvent (Fin numChannels → UInt16))) :
    let n : Node _ _ (Board α) _ _ := boardRun capacity u as
    ((∀ w ∈ cdrWrites n.history, w.Accepted capacity) ↔ ∀ tr ∈ n.traces, Timely capacity tr) ∧
      (n.active = none → (∀ tr ∈ n.traces, PutsOut tr) ∧
        ((∀ w ∈ cdrWrites n.history, w.Accepted capacity) →
          n.state.converted ++ n.state.fifo = (cdrWrites n.history).map CdrWrite.word)) := by
  intro n
  obtain ⟨hexact, hpairs⟩ := exact_boardRun (α := α) capacity u as
  have hwrites : cdrWrites n.history = n.traces.flatMap cdrWrites := by
    rw [Node.history_eq_flatten]
    exact List.filterMap_flatten
  refine ⟨?_, fun hidle => ⟨hpairs hidle, fun hall => ?_⟩⟩
  · rw [hwrites]
    constructor
    · intro hall tr htr
      exact (hexact tr htr).mp fun w hw => hall w (List.mem_flatMap.mpr ⟨tr, htr, hw⟩)
    · intro htimely w hw
      obtain ⟨tr, htr, hw⟩ := List.mem_flatMap.mp hw
      exact (hexact tr htr).mpr (htimely tr htr) w hw
  · refine (fifo_boardRun u as).trans (congrArg (List.map CdrWrite.word) ?_)
    exact List.filter_eq_self.mpr fun w hw => decide_eq_true (hall w hw)

/-- The conversions of one frame, and an invocation with nothing in between. -/
def frameOnBoard : List (Action BoardEvent (Fin numChannels → UInt16)) :=
  [.event (.machine (.conversion 100)), .event (.machine (.conversion 200)), .call fun _ => 0] ++
    List.replicate 25 .cpu

/-- With two places, and one conversion between two invocations, the last word is lost. -/
theorem fourth_word_lost :
    ¬ ∀ (capacity : Nat) (u : PowerUp) (as : List (Action BoardEvent (Fin numChannels → UInt16))),
      2 ≤ capacity →
      ∀ w ∈ cdrWrites (boardRun capacity u as : Node _ _ (Board ℚ) _ _).history,
        w.Accepted capacity := by
  intro h
  let n : Node _ _ (Board ℚ) _ _ :=
    boardRun 2 clearedMemory (frameOnBoard ++ [.event .dacConversion] ++ frameOnBoard)
  have hlevels : (cdrWrites n.history).map (fun w => w.board.fifo.length) = [0, 1, 1, 2] := by
    decide
  have hmem : 2 ∈ (cdrWrites n.history).map fun w => w.board.fifo.length := by
    rw [hlevels]
    decide
  obtain ⟨w, hw, hfull⟩ := List.mem_map.mp hmem
  have haccepted := h 2 clearedMemory _ (Nat.le_refl 2) w hw
  rw [CdrWrite.Accepted, hfull] at haccepted
  exact absurd haccepted (Nat.lt_irrefl 2)

end Anc
