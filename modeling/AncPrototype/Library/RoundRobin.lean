/-
Taking turns.

Of the numbers below `n` some are enabled.  A scanner takes the first enabled one at or
after its position, and goes on behind the one it has taken, or at the beginning if that
was the last one.  `upcoming` lists the enabled numbers in the order in which they are met.
Taking one moves it from the front to the back (`upcoming_after`), however the gaps between
the numbers lie, so the scanner goes around and around the list it has started with; and
wherever it starts, that list is a rotation of the same one (`upcoming_eq_rotate`).

`ahead` is the part that is met before the beginning, and each number that is taken is its
first (`ahead_next`).
-/
import Mathlib.Algebra.Group.Fin.Basic
import Mathlib.Algebra.GroupWithZero.Nat
import Mathlib.Data.Fin.Basic
import Mathlib.Data.List.Rotate

namespace RoundRobin

variable {n : Nat} [NeZero n]

/-- All numbers, in the order in which they are met from `position` on. -/
def order (position : Fin n) : List (Fin n) := (List.finRange n).map (position + ·)

/-- The enabled ones among them. -/
def upcoming (enabled : Fin n → Bool) (position : Fin n) : List (Fin n) :=
  (order position).filter enabled

/-- The number that is taken. -/
def next (enabled : Fin n → Bool) (position : Fin n) : Option (Fin n) :=
  (order position).find? enabled

omit [NeZero n] in
theorem next_eq_head? (enabled : Fin n → Bool) (position : Fin n) :
    next enabled position = (upcoming enabled position).head? :=
  List.head?_filter.symm

omit [NeZero n] in
theorem length_order (position : Fin n) : (order position).length = n := by simp [order]

theorem getElem?_order (position : Fin n) {k : Nat} (hk : k < n) :
    (order position)[k]? = some (position + Fin.ofNat n k) := by
  have hval : (⟨k, hk⟩ : Fin n) = Fin.ofNat n k := Fin.ext (Nat.mod_eq_of_lt hk).symm
  rw [← hval]
  simp [order, hk]

omit [NeZero n] in
theorem order_eq_rotate (position : Fin n) : order position = (List.finRange n).rotate position := by
  refine List.ext_getElem (by simp [order]) fun k hk hk' => ?_
  refine Fin.ext ?_
  simp only [order, List.getElem_map, List.getElem_finRange, List.getElem_rotate, Fin.val_add,
    List.length_finRange, Fin.val_cast, Nat.add_comm]

/-- From a later position on, the ones before it come last. -/
theorem order_add (position : Fin n) (k : Nat) :
    order (position + Fin.ofNat n k) = (order position).rotate k := by
  have hmod : ((position : Nat) + k % n) % n = (position + k) % n := Nat.add_mod_mod ..
  have hlen : (List.finRange n).length = n := List.length_finRange
  rw [order_eq_rotate, order_eq_rotate, List.rotate_rotate, Fin.val_add, Fin.val_ofNat, hmod,
    ← List.rotate_mod _ (position + k), hlen]

/-- The enabled numbers from `position` to the end. -/
def ahead (enabled : Fin n → Bool) (position : Fin n) : List (Fin n) :=
  ((List.finRange n).drop position).filter enabled

/-- And those before it. -/
def behind (enabled : Fin n → Bool) (position : Fin n) : List (Fin n) :=
  ((List.finRange n).take position).filter enabled

/-- Where the scanner goes on. -/
def after (enabled : Fin n → Bool) (number : Fin n) : Fin n :=
  if ahead enabled number = [number] then 0 else number + 1

omit [NeZero n] in
theorem upcoming_eq (enabled : Fin n → Bool) (position : Fin n) :
    upcoming enabled position = ahead enabled position ++ behind enabled position := by
  have hle : position.val ≤ (List.finRange n).length := by
    rw [List.length_finRange]
    exact position.isLt.le
  unfold upcoming
  rw [order_eq_rotate, List.rotate_eq_drop_append_take hle, List.filter_append]
  rfl

omit [NeZero n] in
theorem filter_finRange (enabled : Fin n → Bool) (position : Fin n) :
    (List.finRange n).filter enabled = behind enabled position ++ ahead enabled position := by
  unfold behind ahead
  rw [← List.filter_append, List.take_append_drop]

omit [NeZero n] in
/-- From another position on, the same numbers are met, and in the same order. -/
theorem upcoming_eq_rotate (enabled : Fin n → Bool) (position : Fin n) :
    upcoming enabled position
      = ((List.finRange n).filter enabled).rotate (behind enabled position).length := by
  rw [upcoming_eq, filter_finRange enabled position, List.rotate_append_length_eq]

omit [NeZero n] in
theorem drop_finRange (number : Fin n) :
    (List.finRange n).drop number = number :: (List.finRange n).drop (number + 1) := by
  have hlt : number.val < (List.finRange n).length := by
    rw [List.length_finRange]
    exact number.isLt
  rw [List.drop_eq_getElem_cons hlt, List.getElem_finRange]
  rfl

/-- Going on behind a number, the scanner meets it last. -/
theorem upcoming_succ {enabled : Fin n → Bool} {position number : Fin n}
    (h : next enabled position = some number) :
    upcoming enabled (number + 1) = (upcoming enabled position).rotate 1 := by
  obtain ⟨henabled, pre, post, horder, hpre⟩ := List.find?_eq_some_iff_append.mp h
  have hpreLt : pre.length < n := by
    have hlen := length_order position
    simp only [horder, List.length_append, List.length_cons] at hlen
    omega
  have hnumber : number = position + Fin.ofNat n pre.length := by
    have hget := getElem?_order position hpreLt
    rw [horder] at hget
    simpa using hget
  have hnext : number + 1 = position + Fin.ofNat n (pre.length + 1) := by
    rw [hnumber, add_assoc]
    congr 1
    refine Fin.ext ?_
    simp [Fin.val_add]
  have hskipped : pre.filter enabled = [] :=
    List.filter_eq_nil_iff.mpr fun a ha => by simpa using hpre a ha
  have hrotated : (order position).rotate (pre.length + 1) = post ++ (pre ++ [number]) := by
    rw [horder, show pre ++ number :: post = (pre ++ [number]) ++ post by simp,
      show pre.length + 1 = (pre ++ [number]).length by simp, List.rotate_append_length_eq]
  unfold upcoming
  rw [hnext, order_add, hrotated, horder]
  simp [hskipped, henabled]

/-- At the end it makes no difference to begin again. -/
theorem upcoming_zero {enabled : Fin n → Bool} {number : Fin n}
    (hlast : ahead enabled number = [number]) :
    upcoming enabled 0 = upcoming enabled (number + 1) := by
  have hzero : upcoming enabled 0 = (List.finRange n).filter enabled := by
    rw [upcoming_eq, filter_finRange enabled 0]
    simp [behind]
  by_cases hlt : number.val + 1 < n
  · have hval : (number + 1).val = number.val + 1 := Fin.val_add_one_of_lt' hlt
    have hnil : ahead enabled (number + 1) = [] := by
      unfold ahead at hlast ⊢
      rw [drop_finRange, ← hval, List.filter_cons] at hlast
      split_ifs at hlast with henabled
      · exact (List.cons.inj hlast).2
      · have hmem : number ∈ [number] := List.mem_singleton_self number
        rw [← hlast] at hmem
        exact absurd (List.mem_filter.mp hmem).2 henabled
    rw [hzero, upcoming_eq, filter_finRange enabled (number + 1), hnil, List.append_nil,
      List.nil_append]
  · have hwrap : number + 1 = 0 := by
      refine Fin.ext ?_
      have hval : number.val + 1 = n := by omega
      simp [Fin.val_add, hval]
    rw [hwrap]

/-- **Whoever has had a turn goes to the end of the list.** -/
theorem upcoming_after {enabled : Fin n → Bool} {position number : Fin n}
    (h : next enabled position = some number) :
    upcoming enabled (after enabled number) = (upcoming enabled position).rotate 1 := by
  unfold after
  split_ifs with hlast
  · rw [upcoming_zero hlast, upcoming_succ h]
  · exact upcoming_succ h

omit [NeZero n] in
/-- What is skipped is not enabled. -/
theorem ahead_next {enabled : Fin n → Bool} {position number : Fin n}
    (h : next enabled position = some number) (hne : ahead enabled position ≠ []) :
    ahead enabled position = ahead enabled number := by
  have hhead : ((List.finRange n).drop position).find? enabled = some number := by
    rw [next_eq_head?, upcoming_eq, List.head?_append_of_ne_nil _ hne] at h
    exact List.head?_filter.symm.trans h
  obtain ⟨-, pre, post, hdrop, hpre⟩ := List.find?_eq_some_iff_append.mp hhead
  have hrest : (List.finRange n).drop (position + pre.length) = number :: post := by
    rw [← List.drop_drop, hdrop, List.drop_left]
  have hnumber : position + pre.length = number.val := by
    have hget : (List.finRange n)[position + pre.length]? = some number := by
      rw [← List.head?_drop, hrest]
      rfl
    obtain ⟨hlt, hval⟩ := List.getElem?_eq_some_iff.mp hget
    rw [← hval, List.getElem_finRange]
    rfl
  have hskipped : pre.filter enabled = [] :=
    List.filter_eq_nil_iff.mpr fun a ha => by simpa using hpre a ha
  unfold ahead
  rw [← hnumber, hrest, hdrop, List.filter_append, hskipped, List.nil_append]

/-- Before the last one, each that is taken leaves the rest. -/
theorem ahead_eq_cons {enabled : Fin n → Bool} {position number : Fin n}
    (h : next enabled position = some number) (hne : ahead enabled position ≠ [])
    (hlast : ahead enabled number ≠ [number]) :
    ahead enabled position = number :: ahead enabled (number + 1) := by
  have henabled : enabled number = true := List.find?_some h
  have hcons : ahead enabled number
      = number :: ((List.finRange n).drop (number.val + 1)).filter enabled := by
    unfold ahead
    rw [drop_finRange, List.filter_cons_of_pos henabled]
  have hlt : number.val + 1 < n := by
    by_contra hge
    refine hlast ?_
    rw [hcons, List.drop_of_length_le (by rw [List.length_finRange]; omega)]
    rfl
  have hval : (number + 1).val = number.val + 1 := Fin.val_add_one_of_lt' hlt
  rw [ahead_next h hne, hcons]
  unfold ahead
  rw [hval]

end RoundRobin
