/-
Counted loops over a 16-bit counter.

`for (i = 0; i < n; ++i) body` with an unsigned 16-bit `i` stops only when the
guard can fail, that is when `n` is a value the counter can reach.  `forFrom` is
the loop itself, counter wrap included, on a fuel that says how often the guard
may still be tested.  `run` is the loop of a bound that fits, and `run_eq` says
it is nothing but the iterations `0, 1, …, n - 1` in order.

Everything after this file reasons about `after`, the state once `k` iterations
are done, by `after_induct`: a loop invariant is a predicate on `k` and on that
state.
-/
import Mathlib.Tactic.Common

namespace CountedLoop

variable {σ : Type} {n : Nat}

/-- The loop from counter value `i` on; `none` when the fuel runs out first. -/
def forFrom (n : Nat) (body : Fin n → σ → σ) : Nat → UInt16 → σ → Option σ
  | 0, _, _ => none
  | fuel + 1, i, s =>
      if h : i.toNat < n then forFrom n body fuel (i + 1) (body ⟨i.toNat, h⟩ s) else some s

/-- The state once `k` iterations are done. -/
def after (body : Fin n → σ → σ) : Nat → σ → σ
  | 0, s => s
  | k + 1, s => if h : k < n then body ⟨k, h⟩ (after body k s) else after body k s

@[simp] theorem after_zero (body : Fin n → σ → σ) (s : σ) : after body 0 s = s := rfl

theorem after_succ (body : Fin n → σ → σ) (s : σ) {k : Nat} (h : k < n) :
    after body (k + 1) s = body ⟨k, h⟩ (after body k s) := by
  simp [after, h]

/-- A counter that has not reached the bound counts up without wrapping. -/
private theorem ofNat_succ (k : Nat) : UInt16.ofNat k + 1 = UInt16.ofNat (k + 1) := by
  simp

private theorem toNat_ofNat {k : Nat} (h : k ≤ 65535) : (UInt16.ofNat k).toNat = k := by
  simp only [UInt16.toNat_ofNat']
  omega

theorem forFrom_eq (hn : n ≤ 65535) (body : Fin n → σ → σ) (s : σ) :
    ∀ (fuel k : Nat), k ≤ n → n < k + fuel →
      forFrom n body fuel (UInt16.ofNat k) (after body k s) = some (after body n s) := by
  intro fuel
  induction fuel with
  | zero => intro k hk hfuel; omega
  | succ fuel ih =>
      intro k hk hfuel
      have hval : (UInt16.ofNat k).toNat = k := toNat_ofNat (by omega)
      unfold forFrom
      by_cases hlt : k < n
      · have hnext := ih (k + 1) hlt (by omega)
        rw [after_succ body s hlt] at hnext
        simp only [hval, hlt, dif_pos, ofNat_succ]
        exact hnext
      · have hkn : k = n := by omega
        simp only [hval, hlt, dif_neg, not_false_eq_true]
        rw [hkn]

/-- The whole loop, for a bound the counter can reach. -/
def run (hn : n ≤ 65535) (body : Fin n → σ → σ) (s : σ) : σ :=
  (forFrom n body (n + 1) 0 s).get (by
    have h := forFrom_eq hn body s (n + 1) 0 (Nat.zero_le n) (by omega)
    rw [show UInt16.ofNat 0 = 0 from rfl, after_zero] at h
    rw [h]
    rfl)

/-- **The loop runs its `n` iterations in order and stops.** -/
theorem run_eq (hn : n ≤ 65535) (body : Fin n → σ → σ) (s : σ) :
    run hn body s = after body n s := by
  have h := forFrom_eq hn body s (n + 1) 0 (Nat.zero_le n) (by omega)
  rw [show UInt16.ofNat 0 = 0 from rfl, after_zero] at h
  simp [run, h]

/-- The loop rule: an invariant that holds at entry and is kept by every iteration. -/
theorem after_induct {P : Nat → σ → Prop} {body : Fin n → σ → σ} {s : σ} (hzero : P 0 s)
    (hstep : ∀ (k : Nat) (h : k < n) (t : σ), P k t → P (k + 1) (body ⟨k, h⟩ t)) :
    ∀ k, k ≤ n → P k (after body k s) := by
  intro k
  induction k with
  | zero => intro _; exact hzero
  | succ k ih =>
      intro hk
      rw [after_succ body s hk]
      exact hstep k hk _ (ih (by omega))

/-- The loop rule at the exit. -/
theorem run_induct {P : Nat → σ → Prop} {hn : n ≤ 65535} {body : Fin n → σ → σ} {s : σ}
    (hzero : P 0 s)
    (hstep : ∀ (k : Nat) (h : k < n) (t : σ), P k t → P (k + 1) (body ⟨k, h⟩ t)) :
    P n (run hn body s) := by
  rw [run_eq]
  exact after_induct hzero hstep n (Nat.le_refl n)

/-! ### Loops that fill an array -/

variable {α : Type}

/-- A loop that rewrites one cell an iteration, from that cell's old value alone. -/
def fill (hn : n ≤ 65535) (f : Fin n → α → α) (xs : Vector α n) : Vector α n :=
  run hn (fun k v => v.set k.val (f k v[k.val])) xs

/-- It maps over the array. -/
theorem getElem_fill (hn : n ≤ 65535) (f : Fin n → α → α) (xs : Vector α n) (i : Nat)
    (hi : i < n) : (fill hn f xs)[i] = f ⟨i, hi⟩ xs[i] := by
  let P (k : Nat) (v : Vector α n) : Prop :=
    ∀ j (hj : j < n), v[j] = if j < k then f ⟨j, hj⟩ xs[j] else xs[j]
  have hzero : P 0 xs := by
    intro j hj
    simp
  have hstep : ∀ (k : Nat) (h : k < n) (v : Vector α n), P k v →
      P (k + 1) (v.set k (f ⟨k, h⟩ v[k])) := by
    intro k hk v hv j hj
    by_cases hjk : k = j
    · subst hjk
      simp [hv k hk]
    · have hlt : j < k + 1 ↔ j < k := by omega
      simp [hjk, hv j hj, hlt]
  have hdone : P n (fill hn f xs) := run_induct hzero hstep
  rw [hdone i hi, if_pos hi]

end CountedLoop
