/-
What `anc_predict` and `anc_update` compute.

Both functions walk the buffer backwards from `x_idx`, each on its own.  `tap i` is
the entry either of them meets at its `i`-th iteration, and the two lemmas of this
file say everything later proofs need: the prediction loop accumulates
`tap i * -1 * W i` from the left, and the update adds `step * error * tap i` to the
leaked weight `i`.  No other file unfolds the loops.
-/
import AncPrototype.Model.Filter

namespace Anc

open FloatArith

variable {α : Type} {L : BufLen}

namespace Fxlms

/-- The entry paired with weight `i`. -/
def tap (s : Fxlms α L) (i : Nat) : α := (RingIndex.back^[i] s.xIdx).read s.x

/-- The entries paired with the weights, in order. -/
def taps (s : Fxlms α L) : List α := RingIndex.walk s.x L.len s.xIdx

@[simp] theorem length_taps (s : Fxlms α L) : s.taps.length = L.len :=
  RingIndex.length_walk ..

theorem getElem_taps (s : Fxlms α L) (i : Nat) (hi : i < s.taps.length) :
    s.taps[i] = s.tap i :=
  RingIndex.getElem_walk ..

variable [FloatArith α]

/-! ### The prediction loop -/

/-- The accumulator and the cursor once `k` iterations are done. -/
def accumulate (s : Fxlms α L) (k : Nat) : α × RingIndex L.len :=
  CountedLoop.after s.predictBody k (ofInt 0, s.xIdx)

/-- The cursor has gone back once an iteration. -/
theorem accumulate_snd (s : Fxlms α L) :
    ∀ k, k ≤ L.len → (s.accumulate k).2 = RingIndex.back^[k] s.xIdx := by
  let P (k : Nat) (p : α × RingIndex L.len) : Prop := p.2 = RingIndex.back^[k] s.xIdx
  refine CountedLoop.after_induct (P := P) rfl ?_
  intro k hk p hp
  show p.2.back = RingIndex.back^[k + 1] s.xIdx
  rw [show p.2 = RingIndex.back^[k] s.xIdx from hp, Function.iterate_succ_apply']

theorem accumulate_succ (s : Fxlms α L) {k : Nat} (hk : k < L.len) :
    (s.accumulate (k + 1)).1 = (s.accumulate k).1 + s.tap k * ofInt (-1) * s.W[k] := by
  unfold accumulate
  rw [CountedLoop.after_succ _ _ hk]
  show (s.accumulate k).1 + (s.accumulate k).2.read s.x * ofInt (-1) * s.W[k] = _
  rw [accumulate_snd s k (by omega)]
  rfl

theorem predictSum_eq_accumulate (s : Fxlms α L) : s.predictSum = (s.accumulate L.len).1 := by
  unfold predictSum accumulate
  rw [CountedLoop.run_eq]

theorem accumulate_eq_foldl (s : Fxlms α L) :
    ∀ k, k ≤ L.len → (s.accumulate k).1 = ((s.taps.zip s.W.toList).take k).foldl
      (fun acc p => acc + p.1 * ofInt (-1) * p.2) (ofInt 0) := by
  intro k
  induction k with
  | zero => intro _; rfl
  | succ k ih =>
      intro hk
      have hlen : k < (s.taps.zip s.W.toList).length := by simp; omega
      rw [accumulate_succ s hk, ih (by omega), List.take_succ_eq_append_getElem hlen,
        List.foldl_append]
      simp [getElem_taps]

/-- The loop accumulates `tap i * -1 * W i` from the left. -/
theorem predictSum_eq (s : Fxlms α L) :
    s.predictSum = (s.taps.zip s.W.toList).foldl
      (fun acc p => acc + p.1 * ofInt (-1) * p.2) (ofInt 0) := by
  have hlen : (s.taps.zip s.W.toList).length ≤ L.len := by simp
  rw [predictSum_eq_accumulate, accumulate_eq_foldl s L.len (Nat.le_refl _),
    List.take_of_length_le hlen]

/-! ### The update -/

theorem getElem_buffStep (s : Fxlms α L) (error : α) (i : Nat) (hi : i < L.len) :
    (s.buffStep error)[i] = s.step * error * s.tap i := by
  let P (k : Nat) (p : Vector α L.len × RingIndex L.len) : Prop :=
    p.2 = RingIndex.back^[k] s.xIdx ∧
      ∀ j (hj : j < L.len), j < k → p.1[j] = s.step * error * s.tap j
  have hzero : ∀ v, P 0 (v, s.xIdx) := fun v => ⟨rfl, fun j _ hj => absurd hj (Nat.not_lt_zero j)⟩
  have hstep : ∀ (k : Nat) (h : k < L.len) (p : Vector α L.len × RingIndex L.len), P k p →
      P (k + 1) (s.stepBody error ⟨k, h⟩ p) := by
    rintro k hk ⟨v, t⟩ ⟨ht, hv⟩
    refine ⟨?_, ?_⟩
    · show t.back = RingIndex.back^[k + 1] s.xIdx
      rw [show t = RingIndex.back^[k] s.xIdx from ht, Function.iterate_succ_apply']
    · intro j hj hjk
      show (v.set k (s.step * error * t.read s.x))[j] = _
      by_cases heq : k = j
      · subst heq
        rw [show t = RingIndex.back^[k] s.xIdx from ht]
        simp [tap]
      · rw [Vector.getElem_set_ne _ _ heq]
        exact hv j hj (by omega)
  have hdone : ∀ v, P L.len (CountedLoop.run L.fits (s.stepBody error) (v, s.xIdx)) :=
    fun v => CountedLoop.run_induct (hzero v) hstep
  exact (hdone _).2 i hi hi

/-- The update leaks the weight and adds the error times the tap it is paired with. -/
theorem getElem_ancUpdate_W (s : Fxlms α L) (residual : UInt16) (i : Nat) (hi : i < L.len) :
    (ancUpdate s residual).W[i]
      = (ofInt 1 - s.step) * s.W[i] + s.step * deviation residual * s.tap i := by
  unfold ancUpdate
  rw [CountedLoop.getElem_fill, getElem_buffStep]

/-- What a call keeps, given its argument, a sequence of calls keeps. -/
theorem calls_keep {P : Fxlms α L → Prop} {A : Call → Prop}
    (hcall : ∀ {s : Fxlms α L} {c : Call}, P s → A c → P (s.call c)) :
    ∀ (cs : List Call) {s : Fxlms α L}, P s → (∀ c ∈ cs, A c) → P (s.calls cs) := by
  intro cs
  induction cs with
  | nil => intro s h _; exact h
  | cons c cs ih =>
      intro s h hall
      exact ih (hcall h (hall c (by simp))) (fun d hd => hall d (by simp [hd]))

end Fxlms

end Anc
