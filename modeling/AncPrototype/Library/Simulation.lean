/-
One device on top of another.

A driver function is an access of the model above it and a program of the one below:
it reads a register, changes some bits of what it has read, and writes it back.
`Prog.interpret` puts such programs in the place of the accesses.  `Implements` says
that a program does what one access does: whatever events fall in between, its accesses
leave what is visible above alone and are not seen there, but for the last, and that one
is the access and is seen as it.

Then a run below is a run above.  `Underway` is the relation the two programs are in
while the lower one is somewhere inside an access of the upper one, `NodeSim` extends it
to nodes, and `Simulates.run` follows a run; each action below is none, one or several
above.  The processor takes its interrupts in the same moments on both sides, and the
accesses of a call, as they are seen, are those of the call above with the same answers.
-/
import AncPrototype.Library.Interrupt
import Mathlib.Data.List.Forall2

namespace DeviceProgram

variable {Op Op' : Type} {Resp : Op → Type} {Resp' : Op' → Type} {S S' Ev Ev' C A B : Type}

namespace Prog

/-- A program with programs in the place of its accesses. -/
def interpret (impl : (o : Op) → Prog Op' Resp' (Resp o)) : Prog Op Resp A → Prog Op' Resp' A
  | ret a => ret a
  | step o k => (impl o).bind fun r => (k r).interpret impl

/-- Every access for itself. -/
theorem interpret_self : ∀ p : Prog Op Resp A, p.interpret (fun o => step o ret) = p := by
  intro p
  induction p with
  | ret a => rfl
  | step o k ih => exact congrArg (step o) (funext fun r => ih r)

theorem Only.of_forall {P : Op → Prop} (hP : ∀ o, P o) : ∀ p : Prog Op Resp A, p.Only P := by
  intro p
  induction p with
  | ret a => trivial
  | step o k ih => exact ⟨hP o, fun r => ih r⟩

end Prog

/-- An access with its answer. -/
def Device.answered (d : Device Op Resp S Ev) (a : Op × S) : (o : Op) × Resp o :=
  ⟨a.1, (d.exec a.1 a.2).1⟩

/-- What a state below shows above, the frame it does so in, and what an access below is seen
as. -/
structure View (Op : Type) (Resp : Op → Type) (S Op' S' : Type) where
  part : S' → S
  frame : S' → Prop
  seen : Op' × S' → Option ((o : Op) × Resp o)

/-- `p` does below what the access `o` does above. -/
def Implements (small : Device Op Resp S Ev) (big : Device Op' Resp' S' Ev')
    (v : View Op Resp S Op' S') (o : Op) : Prog Op' Resp' (Resp o) → S' → Prop
  | .ret _, _ => False
  | .step o' k, s => ∀ es,
      let t := big.envs es s
      let out := big.exec o' t
      v.frame out.2 ∧
        ((v.seen (o', t) = none ∧ v.part out.2 = v.part t ∧
            Implements small big v o (k out.1) out.2) ∨
          (v.seen (o', t) = some (small.answered (o, v.part t)) ∧
            k out.1 = .ret (small.exec o (v.part t)).1 ∧
            ∃ es', v.part out.2 = small.envs es' (small.exec o (v.part t)).2))

theorem Implements.env {small : Device Op Resp S Ev} {big : Device Op' Resp' S' Ev'}
    {v : View Op Resp S Op' S'} {o : Op} {p : Prog Op' Resp' (Resp o)} {s : S'}
    (h : Implements small big v o p s) (e : Ev') : Implements small big v o p (big.env e s) := by
  cases p with
  | ret a => exact h
  | step o' k => intro es; exact h (e :: es)

/-- One access for one. -/
theorem Implements.access {small : Device Op Resp S Ev} {big : Device Op' Resp' S' Ev'}
    {v : View Op Resp S Op' S'} {o : Op} {o' : Op'} (answer : Resp' o' → Resp o) {s : S'}
    (hframe : ∀ es, v.frame (big.envs es s))
    (hseen : ∀ t, v.seen (o', t) = some ⟨o, answer (big.exec o' t).1⟩)
    (h : ∀ t, v.frame t → v.frame (big.exec o' t).2 ∧
      answer (big.exec o' t).1 = (small.exec o (v.part t)).1 ∧
      ∃ es, v.part (big.exec o' t).2 = small.envs es (small.exec o (v.part t)).2) :
    Implements small big v o (.step o' fun r => .ret (answer r)) s := by
  intro es
  obtain ⟨hframe', hanswer, es', hpart⟩ := h _ (hframe es)
  refine ⟨hframe', .inr ⟨?_, congrArg Prog.ret hanswer, es', hpart⟩⟩
  rw [hseen, hanswer]
  rfl

/-- The lower one of two hosts, and how it is one of the upper one. -/
structure Simulates (small : IrqHost Op Resp S Ev C A) (big : IrqHost Op' Resp' S' Ev' C A)
    (v : View Op Resp S Op' S') (P : Op → Prop) (impl : (o : Op) → Prog Op' Resp' (Resp o)) :
    Prop where
  env : ∀ e s, v.frame s → v.frame (big.env e s) ∧
    ∃ es, v.part (big.env e s) = small.envs es (v.part s)
  pending : ∀ s, v.frame s → big.pending s = small.pending (v.part s)
  prog : ∀ c, big.prog c = (small.prog c).interpret impl
  only : ∀ c, (small.prog c).Only P
  impl : ∀ o s, P o → v.frame s →
    Implements small.toDevice big.toDevice v o (impl o) s

/-- A program below and the program above that it is in the middle of. -/
inductive Underway (small : Device Op Resp S Ev) (big : Device Op' Resp' S' Ev')
    (v : View Op Resp S Op' S') (P : Op → Prop) (impl : (o : Op) → Prog Op' Resp' (Resp o)) (s : S') :
    Prog Op' Resp' A → Prog Op Resp A → Prop where
  | ret (a : A) : Underway small big v P impl s (.ret a) (.ret a)
  | within (o : Op) (k : Resp o → Prog Op Resp A) (q : Prog Op' Resp' (Resp o))
      (hq : Implements small big v o q s) (hk : ∀ r, (k r).Only P) :
      Underway small big v P impl s (q.bind fun r => (k r).interpret impl) (.step o k)

/-- A call that has returned below and above. -/
structure SameReturn (small : Device Op Resp S Ev) (v : View Op Resp S Op' S')
    (f' : Finished Op' S' C A) (f : Finished Op S C A) : Prop where
  call : f'.call = f.call
  accesses : f'.accesses.filterMap v.seen = f.accesses.map small.answered
  result : f'.result = f.result
  after : v.part f'.after = f.after

/-- What is under way below and above. -/
inductive SameActive (small : Device Op Resp S Ev) (big : Device Op' Resp' S' Ev')
    (v : View Op Resp S Op' S') (P : Op → Prop) (impl : (o : Op) → Prog Op' Resp' (Resp o)) (s : S') :
    Option (Active Op' Resp' S' C A) → Option (Active Op Resp S C A) → Prop where
  | none : SameActive small big v P impl s none none
  | some (c : C) (tr' : List (Op' × S')) (tr : List (Op × S)) (p' : Prog Op' Resp' A)
      (p : Prog Op Resp A) (htr : tr'.filterMap v.seen = tr.map small.answered)
      (hp : Underway small big v P impl s p' p) :
      SameActive small big v P impl s (some ⟨c, tr', p'⟩) (some ⟨c, tr, p⟩)

/-- A node below and the one above. -/
structure NodeSim (small : Device Op Resp S Ev) (big : Device Op' Resp' S' Ev')
    (v : View Op Resp S Op' S') (P : Op → Prop) (impl : (o : Op) → Prog Op' Resp' (Resp o))
    (n' : Node Op' Resp' S' C A) (n : Node Op Resp S C A) : Prop where
  frame : v.frame n'.state
  state : v.part n'.state = n.state
  active : SameActive small big v P impl n'.state n'.active n.active
  finished : List.Forall₂ (SameReturn small v) n'.finished n.finished

namespace IrqHost

/-- Events are actions. -/
theorem run_events (h : IrqHost Op Resp S Ev C A) : ∀ (es : List Ev) (n : Node Op Resp S C A),
    h.run n (es.map .event) = { n with state := h.envs es n.state } := by
  intro es
  induction es with
  | nil => intro n; rfl
  | cons e es ih => intro n; exact ih _

end IrqHost

namespace Simulates

variable {small : IrqHost Op Resp S Ev C A} {big : IrqHost Op' Resp' S' Ev' C A}
  {v : View Op Resp S Op' S'} {P : Op → Prop} {impl : (o : Op) → Prog Op' Resp' (Resp o)}

/-- The relation of two nodes of these hosts. -/
abbrev Rel (_ : Simulates small big v P impl) (n' : Node Op' Resp' S' C A)
    (n : Node Op Resp S C A) : Prop :=
  NodeSim small.toDevice big.toDevice v P impl n' n

/-- A program at its start is under way. -/
theorem underway (h : Simulates small big v P impl) {s : S'} (hs : v.frame s) :
    ∀ {p : Prog Op Resp A}, p.Only P →
      Underway small.toDevice big.toDevice v P impl s (p.interpret impl) p := by
  intro p hp
  cases p with
  | ret a => exact .ret a
  | step o k => exact .within o k (impl o) (h.impl o s hp.1 hs) hp.2

/-- **One action below is a run above.** -/
theorem act (h : Simulates small big v P impl) {n' : Node Op' Resp' S' C A}
    {n : Node Op Resp S C A} (hn : h.Rel n' n) (a : Action Ev' C) :
    ∃ as, h.Rel (big.act n' a) (small.run n as) := by
  obtain ⟨s', active', fs'⟩ := n'
  obtain ⟨s, active, fs⟩ := n
  obtain ⟨hframe, rfl, hactive, hfinished⟩ := hn
  cases a with
  | event e =>
      obtain ⟨hframe', es, hpart⟩ := h.env e s' hframe
      refine ⟨es.map .event, ?_⟩
      rw [IrqHost.run_events]
      refine ⟨hframe', hpart, ?_, hfinished⟩
      cases hactive with
      | none => exact .none
      | some c tr' tr p' p htr hp =>
          refine .some c tr' tr p' p htr ?_
          cases hp with
          | ret a => exact .ret a
          | within o k q hq hk => exact .within o k q (hq.env e) hk
  | call c =>
      refine ⟨[.call c], ?_⟩
      show h.Rel (if big.pending s' then _ else _) (if small.pending (v.part s') then _ else _)
      rw [h.pending s' hframe]
      by_cases hpending : small.pending (v.part s')
      · rw [if_pos hpending, if_pos hpending]
        cases hactive with
        | none =>
            refine ⟨hframe, rfl, ?_, hfinished⟩
            show SameActive _ _ _ _ _ _ (some ⟨c, [], big.prog c⟩) (some ⟨c, [], small.prog c⟩)
            rw [h.prog c]
            exact .some c [] [] _ _ rfl (h.underway hframe (h.only c))
        | some d tr' tr p' p htr hp => exact ⟨hframe, rfl, .some d tr' tr p' p htr hp, hfinished⟩
      · rw [if_neg hpending, if_neg hpending]
        exact ⟨hframe, rfl, hactive, hfinished⟩
  | cpu =>
      cases hactive with
      | none => exact ⟨[], hframe, rfl, .none, hfinished⟩
      | some c tr' tr p' p htr hp =>
          cases hp with
          | ret a =>
              refine ⟨[.cpu], hframe, rfl, .none, ?_⟩
              exact List.rel_append hfinished (.cons ⟨rfl, htr, rfl, rfl⟩ .nil)
          | within o k q hq hk =>
              cases q with
              | ret r => exact hq.elim
              | step o' k' =>
                  obtain ⟨hframe', hstep⟩ := hq []
                  rcases hstep with ⟨hseen, hpart, hrest⟩ | ⟨hseen, hlast, es, hpart⟩
                  -- an access that nobody above can see
                  · refine ⟨[], hframe', hpart, .some c _ tr _ _ ?_ (.within o k _ hrest hk),
                      hfinished⟩
                    have hnone : [(o', s')].filterMap v.seen = [] :=
                      List.filterMap_cons_none hseen
                    rw [List.filterMap_append, htr, hnone, List.append_nil]
                  -- the access itself, and what the device above does with it by itself
                  · refine ⟨.cpu :: es.map .event, ?_⟩
                    show h.Rel _ (small.run (small.act ⟨v.part s', some ⟨c, tr, .step o k⟩, fs⟩ .cpu)
                      (es.map .event))
                    rw [IrqHost.run_events]
                    have hone : [(o', s')].filterMap v.seen = [small.answered (o, v.part s')] :=
                      List.filterMap_cons_some hseen
                    refine ⟨hframe', hpart, .some c _ _ _ _ ?_ ?_, hfinished⟩
                    · rw [List.filterMap_append, List.map_append, htr, hone]
                      rfl
                    show Underway _ _ _ _ _ _ ((k' (big.exec o' s').1).bind _) _
                    rw [show k' (big.exec o' s').1 = _ from hlast]
                    exact h.underway hframe' (hk _)

/-- **A run below is a run above.** -/
theorem run (h : Simulates small big v P impl) : ∀ (as' : List (Action Ev' C))
    {n' : Node Op' Resp' S' C A} {n : Node Op Resp S C A}, h.Rel n' n →
      ∃ as, h.Rel (big.run n' as') (small.run n as) := by
  intro as'
  induction as' with
  | nil => intro n' n hn; exact ⟨[], hn⟩
  | cons a as' ih =>
      intro n' n hn
      obtain ⟨as, hact⟩ := h.act hn a
      obtain ⟨as₂, hrun⟩ := ih hact
      refine ⟨as ++ as₂, ?_⟩
      rw [IrqHost.run_append]
      exact hrun

end Simulates

/-! ### What is left of it -/

/-- The same calls have returned, and the same one is under way, with the same results, states and
accesses as far as `f` and `seen'` show them. -/
structure Shows {X : Type} (f : S' → S) (seen' : Op' × S' → Option X) (seen : Op × S → Option X)
    (n' : Node Op' Resp' S' C A) (n : Node Op Resp S C A) : Prop where
  state : f n'.state = n.state
  active : n'.active.map (fun p => (p.call, p.accesses.filterMap seen'))
    = n.active.map fun p => (p.call, p.accesses.filterMap seen)
  finished : n'.finished.map (fun g => (g.call, g.accesses.filterMap seen', g.result, f g.after))
    = n.finished.map fun g => (g.call, g.accesses.filterMap seen, g.result, g.after)

/-- Every access with its answer. -/
def Device.seenAll (d : Device Op Resp S Ev) (a : Op × S) : Option ((o : Op) × Resp o) :=
  some (d.answered a)

theorem Device.filterMap_seenAll (d : Device Op Resp S Ev) (tr : List (Op × S)) :
    tr.filterMap d.seenAll = tr.map d.answered :=
  congrFun List.filterMap_eq_map' tr

theorem NodeSim.shows {small : Device Op Resp S Ev} {big : Device Op' Resp' S' Ev'}
    {v : View Op Resp S Op' S'} {P : Op → Prop} {impl : (o : Op) → Prog Op' Resp' (Resp o)}
    {n' : Node Op' Resp' S' C A} {n : Node Op Resp S C A} (h : NodeSim small big v P impl n' n) :
    Shows v.part v.seen small.seenAll n' n := by
  obtain ⟨s', active', fs'⟩ := n'
  obtain ⟨s, active, fs⟩ := n
  have hactive : SameActive small big v P impl s' active' active := h.active
  have hfinished : List.Forall₂ (SameReturn small v) fs' fs := h.finished
  refine ⟨h.state, ?_, ?_⟩
  · cases hactive with
    | none => rfl
    | some c tr' tr p' p htr hp =>
        rw [← small.filterMap_seenAll] at htr
        exact congrArg (fun t => some (c, t)) htr
  · clear h
    show fs'.map _ = fs.map _
    induction hfinished with
    | nil => rfl
    | cons hsame _ ih =>
        rw [List.map_cons, List.map_cons, ih, hsame.call, hsame.accesses, hsame.result,
          hsame.after, small.filterMap_seenAll]

namespace Shows

variable {X : Type} {Op₂ : Type} {Resp₂ : Op₂ → Type} {S₂ : Type} {f : S' → S} {g : S → S₂}
  {seen' : Op' × S' → Option X} {seen : Op × S → Option X} {seen₂ : Op₂ × S₂ → Option X}
  {n' : Node Op' Resp' S' C A} {n : Node Op Resp S C A} {n₂ : Node Op₂ Resp₂ S₂ C A}

/-- **Three levels are two.** -/
theorem trans (h : Shows f seen' seen n' n) (h₂ : Shows g seen seen₂ n n₂) :
    Shows (g ∘ f) seen' seen₂ n' n₂ := by
  refine ⟨?_, h.active.trans h₂.active, ?_⟩
  · rw [← h₂.state, ← h.state]
    rfl
  · have hmap := congrArg (List.map fun r : C × List X × A × S => (r.1, r.2.1, r.2.2.1, g r.2.2.2))
      h.finished
    rw [List.map_map, List.map_map] at hmap
    exact hmap.trans h₂.finished

theorem length_finished (h : Shows f seen' seen n' n) :
    n'.finished.length = n.finished.length := by
  simpa using congrArg List.length h.finished

theorem idle_iff (h : Shows f seen' seen n' n) : n'.active = none ↔ n.active = none := by
  have hactive := h.active
  constructor
  · intro hnone
    rw [hnone] at hactive
    exact Option.map_eq_none_iff.mp hactive.symm
  · intro hnone
    rw [hnone] at hactive
    exact Option.map_eq_none_iff.mp hactive

/-- The histories are the same as far as they are seen. -/
theorem history (h : Shows f seen' seen n' n) :
    n'.history.filterMap seen' = n.history.filterMap seen := by
  obtain ⟨s', active', fs'⟩ := n'
  obtain ⟨s, active, fs⟩ := n
  have hfinished : fs'.flatMap (fun g => g.accesses.filterMap seen')
      = fs.flatMap fun g => g.accesses.filterMap seen := by
    have hmap := congrArg (List.flatMap fun r : C × List X × A × S => r.2.1) h.finished
    simpa [List.flatMap_map] using hmap
  have hactive : ((active'.map Active.accesses).getD []).filterMap seen'
      = ((active.map Active.accesses).getD []).filterMap seen := by
    have hcalls := h.active
    cases active' with
    | none =>
        cases active with
        | none => rfl
        | some p => exact absurd hcalls (by simp)
    | some p' =>
        cases active with
        | none => exact absurd hcalls (by simp)
        | some p => exact (Prod.mk.inj (Option.some.inj hcalls)).2
  simp only [Node.history, List.filterMap_append, List.filterMap_flatMap, hactive, hfinished]

end Shows

end DeviceProgram
