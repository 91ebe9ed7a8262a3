/-
Ring indices.

A cursor into a circular buffer of `n` cells, held in a 16-bit word and moved one
cell at a time: back, wrapping at zero, and forward, wrapping at `n`.  The cursor
carries the proof that it is inside the buffer, so reading a cell through it is
never out of bounds.

`walk` lists the cells met going backwards from a cursor.  The facts a circular
delay line rests on are that the walk of `n` cells meets every cell once, so that
overwriting the cell under the cursor changes the head of the walk and nothing
else (`walk_write`), and that going forward undoes going back (`back_advance`).
-/
import Mathlib.Logic.Function.Iterate
import Mathlib.Tactic.Common

/-- A cursor into a buffer of `n` cells. -/
structure RingIndex (n : Nat) where
  /-- The 16-bit word that holds it. -/
  idx : UInt16
  lt : idx.toNat < n
  deriving DecidableEq

namespace RingIndex

variable {n : Nat}

theorem ext' {a b : RingIndex n} (h : a.idx.toNat = b.idx.toNat) : a = b := by
  cases a
  cases b
  simp only [mk.injEq]
  exact UInt16.toNat_inj.mp h

/-- The first cell. -/
def zero (hn : 1 ≤ n) : RingIndex n := ⟨0, hn⟩

private theorem last_lt (t : RingIndex n) : (UInt16.ofNat (n - 1)).toNat < n := by
  have ht := t.lt
  simp only [UInt16.toNat_ofNat']
  omega

private theorem pred_toNat {i : UInt16} (h : i ≠ 0) : (i - 1).toNat = i.toNat - 1 := by
  have hpos : i.toNat ≠ 0 := fun hc => h (UInt16.toNat_inj.mp hc)
  have hlt := i.toNat_lt
  simp only [UInt16.toNat_sub, UInt16.toNat_one]
  omega

/-- One cell back: `if (i == 0) {i = n - 1;} else {--i;}`. -/
def back (t : RingIndex n) : RingIndex n :=
  if h : t.idx = 0 then ⟨UInt16.ofNat (n - 1), last_lt t⟩
  else ⟨t.idx - 1, by rw [pred_toNat h]; have := t.lt; omega⟩

/-- One cell forward: `if (++i == n) {i = 0;}`. -/
def advance (t : RingIndex n) : RingIndex n :=
  if h : (t.idx + 1).toNat = n then ⟨0, by have := t.lt; simp; omega⟩
  else ⟨t.idx + 1, by
    have ht := t.lt
    have hle : (t.idx + 1).toNat ≤ t.idx.toNat + 1 := by
      simp only [UInt16.toNat_add, UInt16.toNat_one]
      exact Nat.mod_le _ _
    omega⟩

theorem back_toNat (hn : n ≤ 65535) (t : RingIndex n) :
    t.back.idx.toNat = if t.idx.toNat = 0 then n - 1 else t.idx.toNat - 1 := by
  unfold back
  by_cases h : t.idx = 0
  · have h0 : t.idx.toNat = 0 := by rw [h]; rfl
    rw [dif_pos h, if_pos h0]
    simp only [UInt16.toNat_ofNat']
    omega
  · have h0 : t.idx.toNat ≠ 0 := fun hc => h (UInt16.toNat_inj.mp hc)
    rw [dif_neg h, if_neg h0]
    exact pred_toNat h

theorem advance_toNat (hn : n ≤ 65535) (t : RingIndex n) :
    t.advance.idx.toNat = if t.idx.toNat + 1 = n then 0 else t.idx.toNat + 1 := by
  have ht := t.lt
  have hsucc : (t.idx + 1).toNat = t.idx.toNat + 1 := by
    simp only [UInt16.toNat_add, UInt16.toNat_one]
    omega
  unfold advance
  by_cases h : t.idx.toNat + 1 = n
  · rw [dif_pos (by rw [hsucc]; exact h), if_pos h]
    rfl
  · rw [dif_neg (by rw [hsucc]; exact h), if_neg h]
    exact hsucc

/-- Going forward and then back ends where it started. -/
theorem back_advance (hn : n ≤ 65535) (t : RingIndex n) : t.advance.back = t := by
  have ht := t.lt
  refine ext' ?_
  rw [back_toNat hn, advance_toNat hn]
  split <;> split <;> omega

/-- Where `k` steps back lead, up to one full turn. -/
theorem iterate_back_toNat (hn : n ≤ 65535) (t : RingIndex n) :
    ∀ k, k ≤ n →
      (back^[k] t).idx.toNat
        = if k ≤ t.idx.toNat then t.idx.toNat - k else t.idx.toNat + n - k := by
  have ht := t.lt
  intro k
  induction k with
  | zero => intro _; simp
  | succ k ih =>
      intro hk
      rw [Function.iterate_succ_apply', back_toNat hn, ih (by omega)]
      split <;> split <;> split <;> omega

/-- Short of a full turn the walk does not meet its start again. -/
theorem iterate_back_ne (hn : n ≤ 65535) (t : RingIndex n) {k : Nat} (hpos : 0 < k) (hk : k < n) :
    (back^[k] t).idx.toNat ≠ t.idx.toNat := by
  have ht := t.lt
  rw [iterate_back_toNat hn t k (by omega)]
  split <;> omega

/-! ### Reading a buffer through a cursor -/

variable {α : Type}

def toFin (t : RingIndex n) : Fin n := ⟨t.idx.toNat, t.lt⟩

/-- The cell under the cursor. -/
def read (x : Vector α n) (t : RingIndex n) : α := x[t.toFin]

/-- The buffer with the cell under the cursor overwritten. -/
def write (x : Vector α n) (t : RingIndex n) (v : α) : Vector α n := x.set t.idx.toNat v t.lt

theorem read_write (x : Vector α n) (t : RingIndex n) (v : α) : read (write x t v) t = v := by
  simp [read, write, toFin]

theorem read_write_ne (x : Vector α n) {t u : RingIndex n} (v : α)
    (h : u.idx.toNat ≠ t.idx.toNat) : read (write x t v) u = read x u := by
  simp [read, write, toFin, Vector.getElem_set_ne _ _ h.symm]

/-- The `k` cells met going back from the cursor, the cell under it first. -/
def walk (x : Vector α n) : Nat → RingIndex n → List α
  | 0, _ => []
  | k + 1, t => read x t :: walk x k t.back

@[simp] theorem length_walk (x : Vector α n) : ∀ k t, (walk x k t).length = k := by
  intro k
  induction k with
  | zero => intro t; rfl
  | succ k ih => intro t; simp [walk, ih]

theorem getElem_walk (x : Vector α n) :
    ∀ (k : Nat) (t : RingIndex n) (i : Nat) (hi : i < (walk x k t).length),
      (walk x k t)[i] = read x (back^[i] t) := by
  intro k
  induction k with
  | zero => intro t i hi; simp at hi
  | succ k ih =>
      intro t i hi
      cases i with
      | zero => rfl
      | succ i =>
          simp only [walk, List.getElem_cons_succ, Function.iterate_succ_apply]
          exact ih t.back i (by simpa using hi)

/-- A longer walk only adds cells at its far end. -/
theorem dropLast_walk (x : Vector α n) (k : Nat) (t : RingIndex n) :
    (walk x k t).dropLast = walk x (k - 1) t := by
  refine List.ext_getElem (by simp) ?_
  intro i h1 h2
  rw [List.getElem_dropLast, getElem_walk, getElem_walk]

/-- **Overwriting the cell under the cursor changes the head of a full walk and nothing else.** -/
theorem walk_write (hn : n ≤ 65535) (x : Vector α n) (t : RingIndex n) (v : α) :
    walk (write x t v) n t = v :: walk x (n - 1) t.back := by
  have ht := t.lt
  refine List.ext_getElem (by simp; omega) ?_
  intro i h1 h2
  rw [getElem_walk]
  simp only [length_walk] at h1
  cases i with
  | zero => simp [read_write]
  | succ i =>
      rw [read_write_ne x v (iterate_back_ne hn t (Nat.succ_pos i) h1)]
      simp only [List.getElem_cons_succ]
      rw [getElem_walk, Function.iterate_succ_apply]

theorem tail_walk (x : Vector α n) (k : Nat) (t : RingIndex n) :
    (walk x k t).tail = walk x (k - 1) t.back := by
  cases k with
  | zero => rfl
  | succ k => rfl

/-- The walk over a constant buffer. -/
theorem walk_replicate (v : α) : ∀ (k : Nat) (t : RingIndex n),
    walk (Vector.replicate n v) k t = List.replicate k v := by
  intro k
  induction k with
  | zero => intro t; rfl
  | succ k ih => intro t; simp [walk, read, ih, List.replicate_succ]

end RingIndex
