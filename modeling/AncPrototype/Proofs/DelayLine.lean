/-
The circular buffer is the shift register.

Two walks go backwards through the buffer, each wrapping at zero, and one cursor
goes forwards, wrapping at the length.  The invariant that makes them agree with
the register is stated between rounds, when the cursor stands on the oldest entry:
the register's list is the walk that starts one cell behind the cursor.  The first
prediction of a round overwrites the oldest entry, which turns that walk into the
one that starts at the cursor; a further prediction overwrites its head; and the
update moves the cursor on, which turns it back.

Nothing is assumed of the arithmetic, so the equality is one of the same
operations applied in the same order to the same operands.
-/
import AncPrototype.Model.ShiftRegister
import AncPrototype.Proofs.Filter

namespace Anc

open FloatArith

variable {α : Type} [FloatArith α] {L : BufLen}

/-- The register holds what the buffer holds, read backwards from cursor `t`. -/
structure HoldsFrom (s : Fxlms α L) (t : RingIndex L.len) (r : ShiftRegister α) : Prop where
  step : r.step = s.step
  weights : r.W = s.W.toList
  history : r.h = RingIndex.walk s.x L.len t

namespace HoldsFrom

variable {s : Fxlms α L} {r : ShiftRegister α}

/-- The first prediction of a round. -/
theorem shift (h : HoldsFrom s s.xIdx.back r) (noise : UInt16) :
    HoldsFrom (s.store noise) s.xIdx (r.shift noise) := by
  refine ⟨h.step, h.weights, ?_⟩
  show (ofInt noise.toNat - ofInt 2048) :: r.h.dropLast
    = RingIndex.walk (s.xIdx.write s.x (deviation noise)) L.len s.xIdx
  rw [RingIndex.walk_write L.fits, h.history, RingIndex.dropLast_walk]
  rfl

/-- A further prediction of the same round. -/
theorem replace (h : HoldsFrom s s.xIdx r) (noise : UInt16) :
    HoldsFrom (s.store noise) s.xIdx (r.replace noise) := by
  refine ⟨h.step, h.weights, ?_⟩
  show (ofInt noise.toNat - ofInt 2048) :: r.h.tail
    = RingIndex.walk (s.xIdx.write s.x (deviation noise)) L.len s.xIdx
  rw [RingIndex.walk_write L.fits, h.history, RingIndex.tail_walk]
  rfl

/-- The two predict the same value. -/
theorem output (h : HoldsFrom s s.xIdx r) : toUInt16 s.predictValue = r.output := by
  have hsum : s.predictSum = r.sum := by
    rw [Fxlms.predictSum_eq, ShiftRegister.sum, h.history, h.weights]
    rfl
  unfold Fxlms.predictValue ShiftRegister.output
  rw [hsum]
  rfl

/-- The update ends the round with the same weights, and puts the cursor past the newest entry. -/
theorem update (h : HoldsFrom s s.xIdx r) (residual : UInt16) :
    HoldsFrom (ancUpdate s residual) (ancUpdate s residual).xIdx.back (r.update residual) := by
  refine ⟨h.step, ?_, ?_⟩
  · refine List.ext_getElem ?_ ?_
    · simp [ShiftRegister.update, h.weights, h.history]
    · intro i h1 h2
      have hi : i < L.len := by simpa using h2
      rw [Vector.getElem_toList, Fxlms.getElem_ancUpdate_W s residual i hi]
      simp only [ShiftRegister.update, List.getElem_zipWith, h.weights, h.history, h.step,
        RingIndex.getElem_walk, Vector.getElem_toList]
      rfl
  · show r.h = RingIndex.walk s.x L.len s.xIdx.advance.back
    rw [RingIndex.back_advance L.fits, h.history]

/-- The further predictions of a round, all together. -/
theorem predictMore : ∀ (ns : List UInt16) {s : Fxlms α L} {r : ShiftRegister α},
    HoldsFrom s s.xIdx r →
      (s.predictAll ns).1 = (r.predictMore ns).1 ∧
        HoldsFrom (s.predictAll ns).2 (s.predictAll ns).2.xIdx (r.predictMore ns).2 := by
  intro ns
  induction ns with
  | nil => intro s r h; exact ⟨rfl, h⟩
  | cons n ns ih =>
      intro s r h
      have hnext : HoldsFrom (s.store n) (s.store n).xIdx (r.replace n) := h.replace n
      obtain ⟨hout, hrest⟩ := ih hnext
      refine ⟨?_, hrest⟩
      show toUInt16 (s.store n).predictValue :: ((s.store n).predictAll ns).1
        = (r.replace n).output :: ((r.replace n).predictMore ns).1
      rw [hnext.output, hout]

/-- One round keeps the invariant and shows the same. -/
theorem round (h : HoldsFrom s s.xIdx.back r) (rd : Round) :
    (s.round rd).1 = (r.round rd).1 ∧
      HoldsFrom (s.round rd).2 (s.round rd).2.xIdx.back (r.round rd).2 := by
  have hfirst : HoldsFrom (s.store rd.noise) (s.store rd.noise).xIdx (r.shift rd.noise) :=
    h.shift rd.noise
  obtain ⟨hout, hmore⟩ := hfirst.predictMore rd.more
  have hdone := hmore.update rd.residual
  refine ⟨?_, hdone⟩
  show RoundResult.mk (toUInt16 (s.store rd.noise).predictValue
      :: ((s.store rd.noise).predictAll rd.more).1) _ = RoundResult.mk _ _
  rw [hfirst.output, hout, hdone.weights]
  rfl

theorem run : ∀ (rounds : List Round) {s : Fxlms α L} {r : ShiftRegister α},
    HoldsFrom s s.xIdx.back r → s.run rounds = r.run rounds := by
  intro rounds
  induction rounds with
  | nil => intro s r _; rfl
  | cons rd rounds ih =>
      intro s r h
      obtain ⟨hres, hnext⟩ := h.round rd
      show (s.round rd).1 :: (s.round rd).2.run rounds
        = (r.round rd).1 :: (r.round rd).2.run rounds
      rw [hres, ih hnext]

/-- Both start without history. -/
theorem cleared (step : α) (W : Vector α L.len) (t : RingIndex L.len) :
    HoldsFrom (Fxlms.cleared step W) t (ShiftRegister.cleared step L.len W.toList) :=
  ⟨rfl, rfl, (RingIndex.walk_replicate (ofInt 0) L.len t).symm⟩

end HoldsFrom

/-- **Every round of the circular-buffer filter predicts and adapts as the shift register does.** -/
theorem run_eq_shiftRegister (L : BufLen) (step : α) (W : Vector α L.len) (rounds : List Round) :
    (Fxlms.cleared step W).run rounds
      = (ShiftRegister.cleared step L.len W.toList).run rounds :=
  (HoldsFrom.cleared step W _).run rounds

end Anc
