/-
Calls that are operations of something simpler.

What a driver is for is less than what it does: its documentation speaks of a set of
clocks or a table of settings, and its code of registers.  `SeqSpec` is the first, a
state and what each operation answers and makes of it; `SeqSpec.Met` says that one call,
whatever events fall between its accesses, is one operation, through a relation `Abs`
between the two states.  During a call nothing needs to hold but `During`.

Then a run of calls is a sequence of operations (`SeqSpec.Met.run`): the calls that have
returned have answered as the operations do, and where they have left the device is
where the operations have left the state.
-/
import AncPrototype.Library.DeviceProgram
import Mathlib.Data.List.Induction

namespace DeviceProgram

namespace Host

variable {Op : Type} {Resp : Op → Type} {S Ev C A : Type} {h : Host Op Resp S Ev C A}

/-- A call that is left alone returns. -/
theorem run_returns (fs : List (Finished Op S C A)) (c : C) :
    ∀ (p : Prog Op Resp A) (tr : List (Op × S)) (s : S), ∃ (as : List (Action Ev C)) (s' : S)
      (f : Finished Op S C A), f.call = c ∧
        h.run ⟨s, some ⟨c, tr, p⟩, fs⟩ as = ⟨s', none, fs ++ [f]⟩ := by
  intro p
  induction p with
  | ret a => intro tr s; exact ⟨[.cpu], s, ⟨c, tr, a, s⟩, rfl, rfl⟩
  | step o k ih =>
      intro tr s
      obtain ⟨as, s', f, hf, hrun⟩ := ih (h.exec o s).1 (tr ++ [(o, s)]) (h.exec o s).2
      exact ⟨.cpu :: as, s', f, hf, hrun⟩

/-- Any calls can be made, one after the other. -/
theorem exists_run (s : S) (cs : List C) : ∃ as : List (Action Ev C),
    (h.run (start s) as).active = none ∧ (h.run (start s) as).finished.map Finished.call = cs := by
  induction cs using List.reverseRecOn with
  | nil => exact ⟨[], rfl, rfl⟩
  | append_singleton cs c ih =>
      obtain ⟨as, hidle, hcalls⟩ := ih
      obtain ⟨as', s', f, hf, hrun⟩ := run_returns (h := h) (h.run (start s) as).finished c
        (h.prog c) [] (h.run (start s) as).state
      have hcall : h.act (h.run (start s) as) (.call c) = ⟨(h.run (start s) as).state,
          some ⟨c, [], h.prog c⟩, (h.run (start s) as).finished⟩ := by
        simp only [act, hidle]
      have hall : h.run (start s) (as ++ .call c :: as')
          = ⟨s', none, (h.run (start s) as).finished ++ [f]⟩ := by
        rw [← hrun, ← hcall]
        exact List.foldl_append
      refine ⟨as ++ .call c :: as', ?_, ?_⟩
      · rw [hall]
      · rw [hall, List.map_append, hcalls, List.map_singleton, hf]

end Host

/-- Operations `C` with answers in `A` on a state `T`. -/
structure SeqSpec (C A T : Type) where
  answer : C → T → A
  after : C → T → T

namespace SeqSpec

variable {C A T : Type} (x : SeqSpec C A T)

/-- The answers to a sequence of operations, and the state after them. -/
def all (t : T) (cs : List C) : List A × T :=
  cs.foldl (fun out c => (out.1 ++ [x.answer c out.2], x.after c out.2)) ([], t)

@[simp] theorem all_nil (t : T) : x.all t [] = ([], t) := rfl

@[simp] theorem all_snoc (t : T) (cs : List C) (c : C) :
    x.all t (cs ++ [c])
      = ((x.all t cs).1 ++ [x.answer c (x.all t cs).2], x.after c (x.all t cs).2) :=
  List.foldl_append

theorem all_snd (cs : List C) : ∀ t, (x.all t cs).2 = cs.foldl (fun t c => x.after c t) t := by
  induction cs using List.reverseRecOn with
  | nil => intro t; rfl
  | append_singleton cs c ih => intro t; rw [all_snoc, List.foldl_append, ← ih t]; rfl

variable {Op : Type} {Resp : Op → Type} {S Ev : Type}

/-- One call is one operation. -/
structure Met (h : Host Op Resp S Ev C A) (Abs : T → S → Prop) (During : C → T → S → Prop) :
    Prop where
  stable : ∀ t, h.Stable (Abs t)
  call : ∀ c t s, Abs t s → h.Sat (fun _ _ u => During c t u)
    (fun _ a u => a = x.answer c t ∧ Abs (x.after c t) u) (h.prog c) [] s
  returning : ∀ c t s, Abs (x.after c t) s → During c t s

/-- The answers are right so far, and `P` holds of where the operations have led. -/
structure Kept (t : T) (P : T → S → Prop) (fs : List (Finished Op S C A)) (s : S) : Prop where
  answers : fs.map Finished.result = (x.all t (fs.map Finished.call)).1
  state : P (x.all t (fs.map Finished.call)).2 s

variable {x} {h : Host Op Resp S Ev C A} {Abs : T → S → Prop} {During : C → T → S → Prop}

/-- One call more. -/
theorem kept_snoc {t : T} {fs : List (Finished Op S C A)} {f : Finished Op S C A} {s : S} :
    x.Kept t Abs (fs ++ [f]) s ↔
      x.Kept t (fun t s => f.result = x.answer f.call t ∧ Abs (x.after f.call t) s) fs s := by
  constructor
  · rintro ⟨hanswers, hstate⟩
    simp only [List.map_append, List.map_singleton, all_snoc] at hanswers hstate
    obtain ⟨hbefore, hlast⟩ := List.append_inj' hanswers rfl
    exact ⟨hbefore, List.singleton_inj.mp hlast, hstate⟩
  · rintro ⟨hanswers, hlast, hstate⟩
    constructor
    · simp only [List.map_append, List.map_singleton, all_snoc, hanswers, hlast]
    · simpa only [List.map_append, List.map_singleton, all_snoc] using hstate

/-- **A run of calls is a sequence of operations.** -/
theorem Met.run (hmet : x.Met h Abs During) {t : T} {s : S} (hs : Abs t s)
    (as : List (Action Ev C)) :
    let n := h.run (Host.start s) as
    (n.active = none → x.Kept t Abs n.finished n.state) ∧
      ∀ p, n.active = some p → x.Kept t (During p.call) n.finished n.state := by
  intro n
  have hok : Host.Ok h (x.Kept t Abs) (fun fs c _ _ => x.Kept t (During c) fs) n := by
    refine Host.run_ok (fun fs e s hkept => ⟨hkept.answers, hmet.stable _ e s hkept.state⟩) ?_ as
      (show x.Kept t Abs [] s from ⟨rfl, hs⟩)
    intro fs c s hkept
    refine Device.Sat.mono (fun _ _ _ hG => ⟨hkept.answers, hG⟩) (fun _ _ _ hQ => ?_) _
      (hmet.call c _ s hkept.state)
    exact kept_snoc.mpr ⟨hkept.answers, hQ⟩
  rcases hok.moments with ⟨hidle, hI⟩ | ⟨c, tr, a, hactive, hI⟩ | ⟨c, tr, o, k, hactive, hG⟩
  · exact ⟨fun _ => hI, fun p hp => absurd (hidle.symm.trans hp) (by simp)⟩
  · refine ⟨fun hidle => absurd (hidle.symm.trans hactive) (by simp), fun p hp => ?_⟩
    obtain rfl := Option.some.inj (hactive.symm.trans hp)
    have hbefore := kept_snoc.mp hI
    exact ⟨hbefore.answers, hmet.returning _ _ _ hbefore.state.2⟩
  · refine ⟨fun hidle => absurd (hidle.symm.trans hactive) (by simp), fun p hp => ?_⟩
    obtain rfl := Option.some.inj (hactive.symm.trans hp)
    exact hG

end SeqSpec

end DeviceProgram
