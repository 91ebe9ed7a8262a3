/-
Programs on a device that moves by itself.

A program reads and writes a device one access at a time, and between any two
accesses the device may take steps of its own.  `Prog` is the program, a tree of
accesses and of what is done with each response; `Device` says what an access does
and what the events of the environment do.  `Host` runs calls of programs one after
the other against the device, and `Host.run` follows a list of actions: an event, a
call, or the next access of the call under way.  Every placement of the events
around and between the accesses is a list of actions.

Proofs do not follow runs.  `Sat G Q p` says that `p`, whatever events fall between
its accesses, makes each of them in a state that `G` allows and ends in `Q`; it is
defined by recursion on the program, with all events quantified in front of every
access.  `Sat.access` discharges one access under an assertion no event can break,
`Sat.of_only` a whole program whose accesses are of a kind that keeps one, and
`Host.run_ok` turns one `Sat` proof about the calls into an invariant of all runs.
-/
import Mathlib.Tactic.Common

namespace DeviceProgram

/-- A program over the accesses `Op`, the access `o` answering in `Resp o`. -/
inductive Prog (Op : Type) (Resp : Op → Type) (A : Type) : Type where
  | ret (a : A) : Prog Op Resp A
  | step (o : Op) (k : Resp o → Prog Op Resp A) : Prog Op Resp A

variable {Op : Type} {Resp : Op → Type} {A B : Type}

namespace Prog

def bind : Prog Op Resp A → (A → Prog Op Resp B) → Prog Op Resp B
  | ret a, f => f a
  | step o k, f => step o fun r => (k r).bind f

instance : Monad (Prog Op Resp) where
  pure := ret
  bind := bind

/-- The same program over a larger set of accesses. -/
def embed {Op' : Type} {Resp' : Op' → Type} (i : Op → Op')
    (answer : (o : Op) → Resp' (i o) → Resp o) : Prog Op Resp A → Prog Op' Resp' A
  | ret a => ret a
  | step o k => step (i o) fun r => (k (answer o r)).embed i answer

theorem embed_bind {Op' : Type} {Resp' : Op' → Type} {i : Op → Op'}
    {answer : (o : Op) → Resp' (i o) → Resp o} (f : A → Prog Op Resp B) :
    ∀ p : Prog Op Resp A,
      (p >>= f).embed i answer = p.embed i answer >>= fun a => (f a).embed i answer := by
  intro p
  induction p with
  | ret a => rfl
  | step o k ih => exact congrArg (step (i o)) (funext fun r => ih _)

/-- Whatever is answered, the program makes accesses of one kind only. -/
def Only (P : Op → Prop) : Prog Op Resp A → Prop
  | ret _ => True
  | step o k => P o ∧ ∀ r, (k r).Only P

theorem Only.bind {P : Op → Prop} {f : A → Prog Op Resp B} (hf : ∀ a, (f a).Only P) :
    ∀ {p : Prog Op Resp A}, p.Only P → (p >>= f).Only P := by
  intro p
  induction p with
  | ret a => intro _; exact hf a
  | step o k ih => intro h; exact ⟨h.1, fun r => ih r (h.2 r)⟩

theorem Only.embed {Op' : Type} {Resp' : Op' → Type} {P : Op' → Prop} {i : Op → Op'}
    {answer : (o : Op) → Resp' (i o) → Resp o} (hi : ∀ o, P (i o)) :
    ∀ p : Prog Op Resp A, (p.embed i answer).Only P := by
  intro p
  induction p with
  | ret a => trivial
  | step o k ih => exact ⟨hi o, fun r => ih _⟩

end Prog

/-- What accesses and events do to a state. -/
structure Device (Op : Type) (Resp : Op → Type) (S Ev : Type) where
  exec : (o : Op) → S → Resp o × S
  env : Ev → S → S

namespace Device

variable {S Ev : Type} (d : Device Op Resp S Ev)

/-- A sequence of events. -/
def envs (es : List Ev) (s : S) : S := es.foldl (fun s e => d.env e s) s

/-- An assertion no event can break. -/
def Stable (P : S → Prop) : Prop := ∀ e s, P s → P (d.env e s)

theorem Stable.envs {d : Device Op Resp S Ev} {P : S → Prop} (h : d.Stable P) :
    ∀ (es : List Ev) {s : S}, P s → P (d.envs es s) := by
  intro es
  induction es with
  | nil => intro s hs; exact hs
  | cons e es ih => intro s hs; exact ih (h e s hs)

theorem Stable.and {d : Device Op Resp S Ev} {P R : S → Prop} (hP : d.Stable P) (hR : d.Stable R) :
    d.Stable fun s => P s ∧ R s :=
  fun e s h => ⟨hP e s h.1, hR e s h.2⟩

/-- A program by itself, with no event in between. -/
def alone : Prog Op Resp A → S → A × S
  | .ret a, s => (a, s)
  | .step o k, s => alone (k (d.exec o s).1) (d.exec o s).2

theorem alone_bind (f : A → Prog Op Resp B) :
    ∀ (p : Prog Op Resp A) (s : S),
      d.alone (p >>= f) s = d.alone (f (d.alone p s).1) (d.alone p s).2 := by
  intro p
  induction p with
  | ret a => intro s; rfl
  | step o k ih => intro s; exact ih _ _

/-! ### Programs under interference -/

/-- `p`, entered in `s` with the accesses `tr` behind it, makes only accesses that `G` allows
and ends in `Q`, whatever events fall in between. -/
def Sat (G : List (Op × S) → Op → S → Prop) (Q : List (Op × S) → A → S → Prop) :
    Prog Op Resp A → List (Op × S) → S → Prop
  | .ret a, tr, s => ∀ es, Q tr a (d.envs es s)
  | .step o k, tr, s => ∀ es, G tr o (d.envs es s) ∧
      Sat G Q (k (d.exec o (d.envs es s)).1) (tr ++ [(o, d.envs es s)])
        (d.exec o (d.envs es s)).2

variable {d} {G : List (Op × S) → Op → S → Prop} {Q : List (Op × S) → A → S → Prop}

/-- Events do not disturb it. -/
theorem Sat.env {p : Prog Op Resp A} {tr : List (Op × S)} {s : S} (h : d.Sat G Q p tr s) (e : Ev) :
    d.Sat G Q p tr (d.env e s) := by
  cases p with
  | ret a => intro es; exact h (e :: es)
  | step o k => intro es; exact h (e :: es)

/-- The end of a program, under an assertion. -/
theorem Sat.ret {P : S → Prop} {a : A} {tr : List (Op × S)} {s : S} (hP : d.Stable P) (hs : P s)
    (h : ∀ t, P t → Q tr a t) : d.Sat G Q (.ret a) tr s :=
  fun es => h _ (hP.envs es hs)

/-- One access, under an assertion. -/
theorem Sat.access {P : S → Prop} {o : Op} {k : Resp o → Prog Op Resp A} {tr : List (Op × S)}
    {s : S} (hP : d.Stable P) (hs : P s)
    (h : ∀ t, P t → G tr o t ∧ d.Sat G Q (k (d.exec o t).1) (tr ++ [(o, t)]) (d.exec o t).2) :
    d.Sat G Q (.step o k) tr s :=
  fun es => h _ (hP.envs es hs)

theorem Sat.mono {G' : List (Op × S) → Op → S → Prop} {Q' : List (Op × S) → A → S → Prop}
    (hG : ∀ tr o s, G tr o s → G' tr o s) (hQ : ∀ tr a s, Q tr a s → Q' tr a s) :
    ∀ (p : Prog Op Resp A) {tr : List (Op × S)} {s : S}, d.Sat G Q p tr s → d.Sat G' Q' p tr s := by
  intro p
  induction p with
  | ret a => intro tr s h es; exact hQ _ _ _ (h es)
  | step o k ih => intro tr s h es; exact ⟨hG _ _ _ (h es).1, ih _ (h es).2⟩

/-- Two things proved of a program hold together. -/
theorem Sat.and {G' : List (Op × S) → Op → S → Prop} {Q' : List (Op × S) → A → S → Prop} :
    ∀ {p : Prog Op Resp A} {tr : List (Op × S)} {s : S}, d.Sat G Q p tr s → d.Sat G' Q' p tr s →
      d.Sat (fun tr o s => G tr o s ∧ G' tr o s) (fun tr a s => Q tr a s ∧ Q' tr a s) p tr s := by
  intro p
  induction p with
  | ret a => intro tr s h h' es; exact ⟨h es, h' es⟩
  | step o k ih =>
      intro tr s h h' es
      exact ⟨⟨(h es).1, (h' es).1⟩, ih _ (h es).2 (h' es).2⟩

/-- Sequencing: the second program starts where the first one ends. -/
theorem Sat.bind {Q : List (Op × S) → B → S → Prop} {f : A → Prog Op Resp B} :
    ∀ (p : Prog Op Resp A) {tr : List (Op × S)} {s : S},
      d.Sat G (fun tr a s => d.Sat G Q (f a) tr s) p tr s → d.Sat G Q (p >>= f) tr s := by
  intro p
  induction p with
  | ret a => intro tr s h; exact h []
  | step o k ih => intro tr s h es; exact ⟨(h es).1, ih _ (h es).2⟩

/-- Sequencing inside an embedded program. -/
theorem Sat.embed_bind {Op' : Type} {Resp' : Op' → Type} {d : Device Op' Resp' S Ev}
    {G : List (Op' × S) → Op' → S → Prop} {Q : List (Op' × S) → B → S → Prop} {i : Op → Op'}
    {answer : (o : Op) → Resp' (i o) → Resp o} {p : Prog Op Resp A} {f : A → Prog Op Resp B}
    {tr : List (Op' × S)} {s : S}
    (h : d.Sat G (fun tr a s => d.Sat G Q ((f a).embed i answer) tr s) (p.embed i answer) tr s) :
    d.Sat G Q ((p >>= f).embed i answer) tr s := by
  rw [Prog.embed_bind]
  exact Sat.bind _ h

/-- The accesses before a program may be counted in or left out. -/
theorem Sat.drop_before {before : List (Op × S)} :
    ∀ (p : Prog Op Resp A) {tr : List (Op × S)} {s : S}, d.Sat G Q p (before ++ tr) s →
      d.Sat (fun tr => G (before ++ tr)) (fun tr => Q (before ++ tr)) p tr s := by
  intro p
  induction p with
  | ret a => intro tr s h; exact h
  | step o k ih =>
      intro tr s h es
      obtain ⟨hnow, hrest⟩ := h es
      rw [List.append_assoc] at hrest
      exact ⟨hnow, ih _ hrest⟩

/-- Assertions about what has happened hold of the state they are made in. -/
theorem Sat.now {R : S → Prop} (hG : ∀ tr o s, G tr o s → R s) (hQ : ∀ tr a s, Q tr a s → R s)
    {p : Prog Op Resp A} {tr : List (Op × S)} {s : S} (h : d.Sat G Q p tr s) : R s := by
  cases p with
  | ret a => exact hQ _ _ _ (h [])
  | step o k => exact hG _ _ _ (h []).1

/-- What events and one kind of accesses keep, a program of such accesses keeps. -/
theorem Sat.of_only {P : Op → Prop} {J : List (Op × S) → S → Prop} (hstable : ∀ tr, d.Stable (J tr))
    (hexec : ∀ tr o s, P o → J tr s → J (tr ++ [(o, s)]) (d.exec o s).2) :
    ∀ {p : Prog Op Resp A}, p.Only P → ∀ {tr : List (Op × S)} {s : S}, J tr s →
      d.Sat (fun tr _ s => J tr s) (fun tr _ s => J tr s) p tr s := by
  intro p
  induction p with
  | ret a => intro _ tr s hs es; exact (hstable tr).envs es hs
  | step o k ih =>
      intro h tr s hs es
      have hs' := (hstable tr).envs es hs
      exact ⟨hs', ih _ (h.2 _) (hexec tr o _ h.1 hs')⟩

/-- The accesses that such a program adds are of the kind. -/
theorem Sat.of_only_trace {P : Op → Prop} {J : S → Prop} (hstable : d.Stable J)
    (hexec : ∀ o s, P o → J s → J (d.exec o s).2) {p : Prog Op Resp A} (hp : p.Only P)
    {tr : List (Op × S)} {s : S} (hs : J s) :
    d.Sat (fun _ _ _ => True) (fun tr' _ s => J s ∧ ∃ more, tr' = tr ++ more ∧ ∀ a ∈ more, P a.1) p
      tr s := by
  let K (tr' : List (Op × S)) (s : S) : Prop :=
    J s ∧ ∃ more : List (Op × S), tr' = tr ++ more ∧ ∀ a ∈ more, P a.1
  have hstart : K tr s := ⟨hs, [], (List.append_nil tr).symm, fun a ha => absurd ha List.not_mem_nil⟩
  refine Sat.mono (fun _ _ _ _ => trivial) (fun _ _ _ hQ => hQ) p
    (Sat.of_only (J := K) (fun _ e s h => ⟨hstable e s h.1, h.2⟩) ?_ hp hstart)
  rintro _ o s ho ⟨hJ, more, rfl, hmore⟩
  refine ⟨hexec o s ho hJ, more ++ [(o, s)], List.append_assoc .., ?_⟩
  exact List.forall_mem_append.mpr ⟨hmore, List.forall_mem_singleton.mpr ho⟩

/-- Such a program first. -/
theorem Sat.bind_only {P : Op → Prop} {J : List (Op × S) → S → Prop}
    {Q : List (Op × S) → B → S → Prop} {p : Prog Op Resp A} {f : A → Prog Op Resp B}
    {tr : List (Op × S)} {s : S} (hp : p.Only P) (hstable : ∀ tr, d.Stable (J tr))
    (hexec : ∀ tr o s, P o → J tr s → J (tr ++ [(o, s)]) (d.exec o s).2)
    (hG : ∀ tr o s, J tr s → G tr o s) (hs : J tr s)
    (hf : ∀ tr a s, J tr s → d.Sat G Q (f a) tr s) : d.Sat G Q (p >>= f) tr s :=
  Sat.bind p (Sat.mono hG hf p (Sat.of_only hstable hexec hp hs))

end Device

/-! ### A device in a larger one -/

section Embed

variable {Op' S' Ev Ev' : Type} {S : Type} {Resp' : Op' → Type} {small : Device Op Resp S Ev}
  {big : Device Op' Resp' S' Ev'} {i : Op → Op'} {answer : (o : Op) → Resp' (i o) → Resp o}
  {part : S' → S} {F : S' → Prop} {R : S → Prop}
  {G : List (Op × S) → Op → S → Prop} {Q : List (Op × S) → A → S → Prop}
  {G' : List (Op' × S') → Op' → S' → Prop} {Q' : List (Op' × S') → A → S' → Prop}

/-- **What a program does to a device it does to a device that contains it**, under a frame `F` of
the rest that the accesses keep, and that the events keep as long as the part meets `R`. -/
theorem Device.Sat.embed (hR : ∀ tr o s, G tr o s → R s) (hR' : ∀ tr a s, Q tr a s → R s)
    (hexec : ∀ o s, F s → F (big.exec (i o) s).2 ∧
      part (big.exec (i o) s).2 = (small.exec o (part s)).2 ∧
      answer o (big.exec (i o) s).1 = (small.exec o (part s)).1)
    (henv : ∀ e s, F s → R (part s) → F (big.env e s) ∧
      (part (big.env e s) = part s ∨ ∃ e', part (big.env e s) = small.env e' (part s)))
    {before : List (Op' × S')}
    (hG : ∀ (tr : List (Op × S')) o s, F s → G (tr.map fun a => (a.1, part a.2)) o (part s) →
      G' (before ++ tr.map fun a => (i a.1, a.2)) (i o) s)
    (hQ : ∀ (tr : List (Op × S')) a s, F s → Q (tr.map fun a => (a.1, part a.2)) a (part s) →
      Q' (before ++ tr.map fun a => (i a.1, a.2)) a s) :
    ∀ (p : Prog Op Resp A) (tr : List (Op × S')) (s : S'), F s →
      small.Sat G Q p (tr.map fun a => (a.1, part a.2)) (part s) →
      big.Sat G' Q' (p.embed i answer) (before ++ tr.map fun a => (i a.1, a.2)) s := by
  -- events first: they keep the frame and what is known of the program
  have hevents : ∀ (p : Prog Op Resp A) (tr : List (Op × S)) (es : List Ev') (s : S'), F s →
      small.Sat G Q p tr (part s) →
      F (big.envs es s) ∧ small.Sat G Q p tr (part (big.envs es s)) := by
    intro p tr es
    induction es with
    | nil => intro s hF h; exact ⟨hF, h⟩
    | cons e es ih =>
        intro s hF h
        obtain ⟨hF', hpart⟩ := henv e s hF (h.now hR hR')
        refine ih (big.env e s) hF' ?_
        rcases hpart with hpart | ⟨e', hpart⟩
        · rw [hpart]
          exact h
        · rw [hpart]
          exact h.env e'
  intro p
  induction p with
  | ret a =>
      intro tr s hF h es
      obtain ⟨hF', h'⟩ := hevents (.ret a) _ es s hF h
      exact hQ tr a _ hF' (h' [])
  | step o k ih =>
      intro tr s hF h es
      obtain ⟨hF', h'⟩ := hevents (.step o k) _ es s hF h
      obtain ⟨hnow, hrest⟩ := h' []
      obtain ⟨hFnext, hpart, hanswer⟩ := hexec o (big.envs es s) hF'
      refine ⟨hG tr o _ hF' hnow, ?_⟩
      have hnext := ih (answer o (big.exec (i o) (big.envs es s)).1)
        (tr ++ [(o, big.envs es s)]) (big.exec (i o) (big.envs es s)).2 hFnext
      rw [List.map_append, List.map_append, hanswer, hpart, ← List.append_assoc] at hnext
      show big.Sat G' Q' ((k (answer o (big.exec (i o) (big.envs es s)).1)).embed i answer) _ _
      rw [hanswer]
      exact hnext hrest

end Embed

/-! ### Calls -/

/-- A device and the calls made on it. -/
structure Host (Op : Type) (Resp : Op → Type) (S Ev C A : Type) extends Device Op Resp S Ev where
  prog : C → Prog Op Resp A

/-- A call that has returned: its accesses, each with the state it was made in, its result and
the state after it. -/
structure Finished (Op S C A : Type) where
  call : C
  accesses : List (Op × S)
  result : A
  after : S

/-- A call under way. -/
structure Active (Op : Type) (Resp : Op → Type) (S C A : Type) where
  call : C
  accesses : List (Op × S)
  rest : Prog Op Resp A

/-- The state of a run. -/
structure Node (Op : Type) (Resp : Op → Type) (S C A : Type) where
  state : S
  active : Option (Active Op Resp S C A)
  finished : List (Finished Op S C A)

inductive Action (Ev C : Type) where
  | event (e : Ev)
  | call (c : C)
  | cpu

/-- All accesses of a run, in order. -/
def Node.history {S C : Type} (n : Node Op Resp S C A) : List (Op × S) :=
  n.finished.flatMap Finished.accesses ++ (n.active.map Active.accesses).getD []

theorem Node.history_idle {S C : Type} {n : Node Op Resp S C A} (ha : n.active = none) :
    n.history = n.finished.flatMap Finished.accesses := by
  unfold Node.history
  rw [ha]
  exact List.append_nil _

theorem Node.history_active {S C : Type} {n : Node Op Resp S C A} {p : Active Op Resp S C A}
    (ha : n.active = some p) :
    n.history = n.finished.flatMap Finished.accesses ++ p.accesses := by
  unfold Node.history
  rw [ha]
  rfl

/-- The accesses of each call, the one under way last. -/
def Node.traces {S C : Type} (n : Node Op Resp S C A) : List (List (Op × S)) :=
  n.finished.map Finished.accesses ++ (n.active.map Active.accesses).toList

theorem Node.history_eq_flatten {S C : Type} (n : Node Op Resp S C A) :
    n.history = n.traces.flatten := by
  obtain ⟨s, active, fs⟩ := n
  cases active <;> simp [Node.history, Node.traces, List.flatMap_def]

namespace Host

variable {S Ev C : Type} (h : Host Op Resp S Ev C A)

/-- One action.  A call is taken only when none is under way, and returns by an action of its
own. -/
def act (n : Node Op Resp S C A) : Action Ev C → Node Op Resp S C A
  | .event e => { n with state := h.env e n.state }
  | .call c =>
      match n.active with
      | none => { n with active := some ⟨c, [], h.prog c⟩ }
      | some _ => n
  | .cpu =>
      match n.active with
      | none => n
      | some ⟨c, tr, .ret a⟩ =>
          { n with active := none, finished := n.finished ++ [⟨c, tr, a, n.state⟩] }
      | some ⟨c, tr, .step o k⟩ =>
          let out := h.exec o n.state
          { n with state := out.2, active := some ⟨c, tr ++ [(o, n.state)], k out.1⟩ }

def run (n : Node Op Resp S C A) (as : List (Action Ev C)) : Node Op Resp S C A :=
  as.foldl h.act n

/-- Nothing has been called yet. -/
def start (s : S) : Node Op Resp S C A := { state := s, active := none, finished := [] }

variable {h}

/-- A call that has returned stays so. -/
theorem finished_act (n : Node Op Resp S C A) (a : Action Ev C) :
    n.finished <+: (h.act n a).finished := by
  obtain ⟨s, active, fs⟩ := n
  cases a with
  | event e => exact List.prefix_rfl
  | call c => cases active <;> exact List.prefix_rfl
  | cpu =>
      rcases active with _ | ⟨c, tr, a | ⟨o, k⟩⟩
      · exact List.prefix_rfl
      · exact List.prefix_append ..
      · exact List.prefix_rfl

theorem finished_run : ∀ (as : List (Action Ev C)) (n : Node Op Resp S C A),
    n.finished <+: (h.run n as).finished := by
  intro as
  induction as with
  | nil => intro n; exact List.prefix_rfl
  | cons a as ih => intro n; exact (finished_act n a).trans (ih (h.act n a))

theorem finished_run_append (n : Node Op Resp S C A) (as later : List (Action Ev C)) :
    (h.run n as).finished <+: (h.run n (as ++ later)).finished := by
  have happend : h.run n (as ++ later) = h.run (h.run n as) later := List.foldl_append
  rw [happend]
  exact finished_run later _

/-- A call returns in an action after which none is under way. -/
theorem mem_finished_act {n : Node Op Resp S C A} {a : Action Ev C} {f : Finished Op S C A}
    (hf : f ∈ (h.act n a).finished) :
    f ∈ n.finished ∨ ((h.act n a).active = none ∧ (h.act n a).state = f.after) := by
  obtain ⟨s, active, fs⟩ := n
  cases a with
  | event e => exact .inl hf
  | call c => cases active <;> exact .inl hf
  | cpu =>
      rcases active with _ | ⟨c, tr, a | ⟨o, k⟩⟩
      · exact .inl hf
      · rcases List.mem_append.mp hf with hf | hf
        · exact .inl hf
        · rw [List.mem_singleton.mp hf]
          exact .inr ⟨rfl, rfl⟩
      · exact .inl hf

/-- **The state after a call is one that the run has passed through**, with no call under way. -/
theorem passed_through : ∀ (as : List (Action Ev C)) {n : Node Op Resp S C A}
    {f : Finished Op S C A}, f ∈ (h.run n as).finished →
      f ∈ n.finished ∨ ∃ as', as' <+: as ∧ f ∈ (h.run n as').finished ∧
        (h.run n as').active = none ∧ (h.run n as').state = f.after := by
  intro as
  induction as with
  | nil => intro n f hf; exact .inl hf
  | cons a as ih =>
      intro n f hf
      rcases ih hf with hact | ⟨as', hprefix, hlater⟩
      · refine (mem_finished_act hact).imp_right fun hreturn => ?_
        exact ⟨[a], List.prefix_append [a] as, hact, hreturn⟩
      · exact .inr ⟨a :: as', List.cons_prefix_cons.mpr ⟨rfl, hprefix⟩, hlater⟩

variable {I : List (Finished Op S C A) → S → Prop}
  {G : List (Finished Op S C A) → C → List (Op × S) → Op → S → Prop}

/-- Between calls the invariant; during one, that the rest of it will restore the invariant. -/
def Ok (h : Host Op Resp S Ev C A) (I : List (Finished Op S C A) → S → Prop)
    (G : List (Finished Op S C A) → C → List (Op × S) → Op → S → Prop) (n : Node Op Resp S C A) :
    Prop :=
  match n.active with
  | none => I n.finished n.state
  | some p => h.Sat (G n.finished p.call)
      (fun tr a s => I (n.finished ++ [⟨p.call, tr, a, s⟩]) s)
      p.rest p.accesses n.state

theorem act_ok (hstable : ∀ fs, h.Stable (I fs))
    (hcall : ∀ fs c s, I fs s → h.Sat (G fs c)
      (fun tr a s => I (fs ++ [⟨c, tr, a, s⟩]) s) (h.prog c) [] s)
    {n : Node Op Resp S C A} (hn : Ok h I G n) (a : Action Ev C) : Ok h I G (h.act n a) := by
  obtain ⟨s, active, fs⟩ := n
  cases a with
  | event e =>
      cases active with
      | none => exact hstable fs e s hn
      | some p => exact Device.Sat.env hn e
  | call c =>
      cases active with
      | none => exact hcall fs c s hn
      | some p => exact hn
  | cpu =>
      cases active with
      | none => exact hn
      | some p =>
          obtain ⟨c, tr, rest⟩ := p
          cases rest with
          | ret a => exact hn []
          | step o k => exact (hn []).2

/-- **A call that restores the invariant under any interference keeps it over every run.** -/
theorem run_ok (hstable : ∀ fs, h.Stable (I fs))
    (hcall : ∀ fs c s, I fs s → h.Sat (G fs c)
      (fun tr a s => I (fs ++ [⟨c, tr, a, s⟩]) s) (h.prog c) [] s) :
    ∀ (as : List (Action Ev C)) {n : Node Op Resp S C A}, Ok h I G n → Ok h I G (h.run n as) := by
  intro as
  induction as with
  | nil => intro n hn; exact hn
  | cons a as ih => intro n hn; exact ih (act_ok hstable hcall hn a)

/-- **What events and accesses keep of the state and of all accesses before it holds over every
run**, whatever the programs are. -/
theorem run_history {J : List (Op × S) → S → Prop} (hstable : ∀ tr, h.Stable (J tr))
    (hexec : ∀ tr o s, J tr s → J (tr ++ [(o, s)]) (h.exec o s).2) :
    ∀ (as : List (Action Ev C)) {n : Node Op Resp S C A}, J n.history n.state →
      J (h.run n as).history (h.run n as).state := by
  intro as
  induction as with
  | nil => intro n hn; exact hn
  | cons a as ih =>
      intro n hn
      refine ih ?_
      obtain ⟨s, active, fs⟩ := n
      cases a with
      | event e => exact hstable _ e s hn
      | call c =>
          cases active with
          | none => exact hn
          | some p => exact hn
      | cpu =>
          cases active with
          | none => exact hn
          | some p =>
              obtain ⟨c, tr, rest⟩ := p
              cases rest with
              | ret a =>
                  have hsame : (h.act ⟨s, some ⟨c, tr, .ret a⟩, fs⟩ .cpu).history
                      = (⟨s, some ⟨c, tr, .ret a⟩, fs⟩ : Node Op Resp S C A).history := by
                    simp [Node.history, act]
                  rw [hsame]
                  exact hn
              | step o k =>
                  have hnext := hexec _ o s hn
                  rw [Node.history_active rfl, List.append_assoc] at hnext
                  exact hnext

/-- What `G` allows is all that is ever about to be done. -/
theorem Ok.allowed {n : Node Op Resp S C A} (hn : Ok h I G n) {c : C} {tr : List (Op × S)} {o : Op}
    {k : Resp o → Prog Op Resp A} (ha : n.active = some ⟨c, tr, .step o k⟩) :
    G n.finished c tr o n.state := by
  unfold Ok at hn
  rw [ha] at hn
  exact (hn []).1

/-- A call about to return has what its return establishes. -/
theorem Ok.returning {n : Node Op Resp S C A} (hn : Ok h I G n) {c : C} {tr : List (Op × S)} {a : A}
    (ha : n.active = some ⟨c, tr, .ret a⟩) :
    I (n.finished ++ [⟨c, tr, a, n.state⟩]) n.state := by
  unfold Ok at hn
  rw [ha] at hn
  exact hn []

theorem Ok.idle {n : Node Op Resp S C A} (hn : Ok h I G n) (ha : n.active = none) :
    I n.finished n.state := by
  unfold Ok at hn
  rwa [ha] at hn

/-- The three kinds of moments. -/
theorem Ok.moments {n : Node Op Resp S C A} (hn : Ok h I G n) :
    (n.active = none ∧ I n.finished n.state) ∨
      (∃ c tr a, n.active = some ⟨c, tr, .ret a⟩ ∧
        I (n.finished ++ [⟨c, tr, a, n.state⟩]) n.state) ∨
      ∃ c tr o k, n.active = some ⟨c, tr, .step o k⟩ ∧ G n.finished c tr o n.state := by
  rcases ha : n.active with _ | ⟨c, tr, a | ⟨o, k⟩⟩
  · exact .inl ⟨rfl, hn.idle ha⟩
  · exact .inr (.inl ⟨c, tr, a, rfl, hn.returning ha⟩)
  · exact .inr (.inr ⟨c, tr, o, k, rfl, hn.allowed ha⟩)

end Host

end DeviceProgram
