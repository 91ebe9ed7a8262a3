/-
A processor with an interrupt.

`Host` takes a call at any moment.  A processor takes an interrupt only while the
device asks for one, and it has a program of its own, which the handler preempts
between any two of its accesses.  `IrqHost` is the first restriction, `Core` the
second half: the node of the handler beside what is left of the main program.

Start-up code is written under the assumption that nothing happens yet.  That is a
claim about states, and `Undisturbed` is what it takes: where `R` admits an access, the
events change nothing but what the relation `E` abstracts from, the access does not
depend on that, and no interrupt is pending.  If `R` admits every access that the
program makes *by itself*, then it makes the same ones in every run, no call is taken
before it ends, and from there on the run is one of the handler alone
(`boot_undisturbed`).  Nothing can hold it up either: it ends with as many accesses as it
makes by itself (`boot_ends_iff`).
-/
import AncPrototype.Library.DeviceProgram

namespace DeviceProgram

/-- A host whose calls are interrupts. -/
structure IrqHost (Op : Type) (Resp : Op → Type) (S Ev C A : Type) extends
    Host Op Resp S Ev C A where
  /-- The device asks for an interrupt. -/
  pending : S → Bool

variable {Op : Type} {Resp : Op → Type} {S Ev C A B : Type}

namespace IrqHost

variable (h : IrqHost Op Resp S Ev C A)

/-- One action.  A call is taken only while an interrupt is pending. -/
def act (n : Node Op Resp S C A) : Action Ev C → Node Op Resp S C A
  | .call c => if h.pending n.state then h.toHost.act n (.call c) else n
  | a => h.toHost.act n a

def run (n : Node Op Resp S C A) (as : List (Action Ev C)) : Node Op Resp S C A :=
  as.foldl h.act n

theorem run_append (n : Node Op Resp S C A) (as as' : List (Action Ev C)) :
    h.run n (as ++ as') = h.run (h.run n as) as' := List.foldl_append

/-- Without the calls that are refused it is a run of the host. -/
theorem run_eq_host : ∀ (as : List (Action Ev C)) (n : Node Op Resp S C A),
    ∃ as', h.toHost.run n as' = h.run n as := by
  intro as
  induction as with
  | nil => intro n; exact ⟨[], rfl⟩
  | cons a as ih =>
      intro n
      obtain ⟨as', heq⟩ := ih (h.act n a)
      by_cases hrefused : h.act n a = n
      · rw [hrefused] at heq
        exact ⟨as', by rw [heq]; show _ = h.run (h.act n a) as; rw [hrefused]⟩
      · refine ⟨a :: as', ?_⟩
        have hact : h.toHost.act n a = h.act n a := by
          cases a with
          | call c =>
              by_cases hpending : h.pending n.state
              · exact (if_pos hpending).symm
              · exact absurd (if_neg hpending) hrefused
          | event e => rfl
          | cpu => rfl
        show h.toHost.run (h.toHost.act n a) as' = _
        rw [hact]
        exact heq

variable {h} {I : List (Finished Op S C A) → S → Prop}
  {G : List (Finished Op S C A) → C → List (Op × S) → Op → S → Prop}

theorem act_ok (hstable : ∀ fs, h.Stable (I fs))
    (hcall : ∀ fs c s, I fs s → h.pending s → h.Sat (G fs c)
      (fun tr a s => I (fs ++ [⟨c, tr, a, s⟩]) s) (h.prog c) [] s)
    {n : Node Op Resp S C A} (hn : Host.Ok h.toHost I G n) (a : Action Ev C) :
    Host.Ok h.toHost I G (h.act n a) := by
  obtain ⟨s, active, fs⟩ := n
  cases a with
  | event e =>
      cases active with
      | none => exact hstable fs e s hn
      | some p => exact Device.Sat.env hn e
  | call c =>
      show Host.Ok h.toHost I G (if h.pending s then _ else _)
      by_cases hpending : h.pending s
      · rw [if_pos hpending]
        cases active with
        | none => exact hcall fs c s hn hpending
        | some p => exact hn
      · rw [if_neg hpending]
        exact hn
  | cpu =>
      cases active with
      | none => exact hn
      | some p =>
          obtain ⟨c, tr, rest⟩ := p
          cases rest with
          | ret a => exact hn []
          | step o k => exact (hn []).2

/-- **A handler that restores the invariant keeps it over every run**, and it may assume that it
has been asked for. -/
theorem run_ok (hstable : ∀ fs, h.Stable (I fs))
    (hcall : ∀ fs c s, I fs s → h.pending s → h.Sat (G fs c)
      (fun tr a s => I (fs ++ [⟨c, tr, a, s⟩]) s) (h.prog c) [] s) :
    ∀ (as : List (Action Ev C)) {n : Node Op Resp S C A}, Host.Ok h.toHost I G n →
      Host.Ok h.toHost I G (h.run n as) := by
  intro as
  induction as with
  | nil => intro n hn; exact hn
  | cons a as ih => intro n hn; exact ih (act_ok hstable hcall hn a)

/-- What every event and every access keeps, whatever the programs. -/
theorem run_keeps {J : S → Prop} (hstable : h.Stable J)
    (hexec : ∀ o s, J s → J (h.exec o s).2) :
    ∀ (as : List (Action Ev C)) {n : Node Op Resp S C A}, J n.state → J (h.run n as).state := by
  intro as
  induction as with
  | nil => intro n hn; exact hn
  | cons a as ih =>
      intro n hn
      refine ih (n := h.act n a) ?_
      obtain ⟨s, active, fs⟩ := n
      cases a with
      | event e => exact hstable e s hn
      | call c =>
          show J (if h.pending s then h.toHost.act ⟨s, active, fs⟩ (.call c) else _).state
          split
          · cases active <;> exact hn
          · exact hn
      | cpu =>
          cases active with
          | none => exact hn
          | some p =>
              obtain ⟨c, tr, rest⟩ := p
              cases rest with
              | ret a => exact hn
              | step o k => exact hexec o s hn

end IrqHost

/-! ### The main program -/

/-- Every access that a program makes by itself is one that `R` admits in its state. -/
def Device.Along (d : Device Op Resp S Ev) (R : Op → S → Prop) : Prog Op Resp B → S → Prop
  | .ret _, _ => True
  | .step o k, s => R o s ∧ d.Along R (k (d.exec o s).1) (d.exec o s).2

theorem Device.Along.of_only {d : Device Op Resp S Ev} {P : Op → Prop} :
    ∀ {p : Prog Op Resp B} {s : S}, p.Only P → d.Along (fun o _ => P o) p s := by
  intro p
  induction p with
  | ret b => intro s _; trivial
  | step o k ih => intro s hp; exact ⟨hp.1, ih _ (hp.2 _)⟩

/-- By itself, a program makes admitted accesses only and ends in `Q`. -/
structure Device.Runs (d : Device Op Resp S Ev) (R : Op → S → Prop) (p : Prog Op Resp B) (s : S)
    (Q : B → S → Prop) : Prop where
  along : d.Along R p s
  ends : Q (d.alone p s).1 (d.alone p s).2

namespace Device.Runs

variable {d : Device Op Resp S Ev} {R : Op → S → Prop} {Q : B → S → Prop}

theorem ret {b : B} {s : S} (h : Q b s) : d.Runs R (.ret b) s Q := ⟨trivial, h⟩

theorem step {o : Op} {k : Resp o → Prog Op Resp B} {s : S} (ho : R o s)
    (h : d.Runs R (k (d.exec o s).1) (d.exec o s).2 Q) : d.Runs R (.step o k) s Q :=
  ⟨⟨ho, h.along⟩, h.ends⟩

/-- Sequencing. -/
theorem bind {D : Type} {f : D → Prog Op Resp B} :
    ∀ {p : Prog Op Resp D} {s : S}, d.Runs R p s (fun b s => d.Runs R (f b) s Q) →
      d.Runs R (p >>= f) s Q := by
  intro p
  induction p with
  | ret a => intro s h; exact h.ends
  | step o k ih => intro s h; exact step h.along.1 (ih _ ⟨h.along.2, h.ends⟩)

/-- A program of accesses that keep an assertion under which they are admitted. -/
theorem of_only {P : Op → Prop} {J : S → Prop} (hR : ∀ o s, P o → J s → R o s)
    (hexec : ∀ o s, P o → J s → J (d.exec o s).2) :
    ∀ {p : Prog Op Resp B} {s : S}, p.Only P → J s → (J (d.alone p s).2 →
      Q (d.alone p s).1 (d.alone p s).2) → d.Runs R p s Q := by
  intro p
  induction p with
  | ret b => intro s _ hs hQ; exact ret (hQ hs)
  | step o k ih =>
      intro s hp hs hQ
      exact step (hR o s hp.1 hs) (ih _ (hp.2 _) (hexec o s hp.1 hs) hQ)

end Device.Runs

/-- The processor moves. -/
def Action.isCpu : Action Ev C → Bool
  | .cpu => true
  | _ => false

/-- **A call answers as it does by itself**, whatever events fall in between, if these change only
what `E` abstracts from and its accesses do not depend on that. -/
theorem Device.Sat.of_alone {d : Device Op Resp S Ev} {R : Op → S → Prop} {E : S → S → Prop}
    (hE : ∀ s, d.Stable (E s))
    (hexec : ∀ o s t, R o s → E s t →
      (d.exec o t).1 = (d.exec o s).1 ∧ E (d.exec o s).2 (d.exec o t).2) :
    ∀ {p : Prog Op Resp B} {s t : S} {tr : List (Op × S)}, d.Along R p s → E s t →
      d.Sat (fun _ _ _ => True) (fun _ b u => b = (d.alone p s).1 ∧ E (d.alone p s).2 u) p tr t := by
  intro p
  induction p with
  | ret b => intro s t tr _ hst es; exact ⟨rfl, (hE s).envs es hst⟩
  | step o k ih =>
      intro s t tr halong hst es
      obtain ⟨hanswer, hnext⟩ := hexec o s _ halong.1 ((hE s).envs es hst)
      refine ⟨trivial, ?_⟩
      rw [hanswer]
      exact ih _ halong.2 hnext

/-- How many accesses a program makes by itself. -/
def Device.accesses (d : Device Op Resp S Ev) : Prog Op Resp B → S → Nat
  | .ret _, _ => 0
  | .step o k, s => d.accesses (k (d.exec o s).1) (d.exec o s).2 + 1

theorem Device.accesses_bind (d : Device Op Resp S Ev) {D : Type} (f : D → Prog Op Resp B) :
    ∀ (p : Prog Op Resp D) (s : S), d.accesses (p >>= f) s
      = d.accesses p s + d.accesses (f (d.alone p s).1) (d.alone p s).2 := by
  intro p
  induction p with
  | ret a => intro s; exact (Nat.zero_add _).symm
  | step o k ih =>
      intro s
      show d.accesses (k (d.exec o s).1 >>= f) _ + 1 = _
      rw [ih, Nat.add_right_comm]
      rfl

/-- The handler's node and what is left of the main program. -/
structure Core (Op : Type) (Resp : Op → Type) (S C A B : Type) where
  node : Node Op Resp S C A
  main : Prog Op Resp B

namespace IrqHost

variable (h : IrqHost Op Resp S Ev C A)

/-- One action; the main program moves only while no call is under way. -/
def bootAct (c : Core Op Resp S C A B) : Action Ev C → Core Op Resp S C A B
  | .cpu =>
      match c.node.active, c.main with
      | none, .step o k =>
          let out := h.exec o c.node.state
          { node := { c.node with state := out.2 }, main := k out.1 }
      | _, _ => { c with node := h.act c.node .cpu }
  | a => { c with node := h.act c.node a }

def boot (c : Core Op Resp S C A B) (as : List (Action Ev C)) : Core Op Resp S C A B :=
  as.foldl h.bootAct c

/-- When the main program has ended, the handler is all there is. -/
theorem boot_ret {b : B} : ∀ (as : List (Action Ev C)) (n : Node Op Resp S C A),
    h.boot ⟨n, .ret b⟩ as = ⟨h.run n as, .ret b⟩ := by
  intro as
  induction as with
  | nil => intro n; rfl
  | cons a as ih =>
      intro n
      have hact : h.bootAct ⟨n, .ret b⟩ a = ⟨h.act n a, .ret b⟩ := by
        cases a with
        | event e => rfl
        | call c => rfl
        | cpu => cases hactive : n.active <;> simp [bootAct, hactive]
      show h.boot (h.bootAct ⟨n, .ret b⟩ a) as = _
      rw [hact]
      exact ih (h.act n a)

/-- Where `R` admits an access, events change nothing but what `E` abstracts from, the access does
not depend on that, and no interrupt is pending. -/
structure Undisturbed (R : Op → S → Prop) (E : S → S → Prop) : Prop where
  event : ∀ o e s t, R o s → E s t → E s (h.env e t)
  masked : ∀ o s t, R o s → E s t → h.pending t = false
  exec : ∀ o s t, R o s → E s t →
    (h.exec o t).1 = (h.exec o s).1 ∧ E (h.exec o s).2 (h.exec o t).2

/-- The main program is under way, as it would be by itself, and nothing else has happened. -/
structure Booting (R : Op → S → Prop) (E : S → S → Prop) (out : B × S)
    (c : Core Op Resp S C A B) (s : S) : Prop where
  idle : c.node.active = none
  fresh : c.node.finished = []
  along : h.Along R c.main s
  state : E s c.node.state
  out : h.alone c.main s = out

variable {h} {R : Op → S → Prop} {E : S → S → Prop}

/-- **One action of a quiet program**: the processor makes its next access, and nothing else gets it
any further or holds it up. -/
theorem Booting.act (hq : h.Undisturbed R E) {out : B × S} {c : Core Op Resp S C A B} {s : S}
    (hc : Booting h R E out c s) {o : Op} {k : Resp o → Prog Op Resp B}
    (hmain : c.main = .step o k) (a : Action Ev C) :
    ∃ s', Booting h R E out (h.bootAct c a) s' ∧
      h.accesses (h.bootAct c a).main s' + (if a.isCpu then 1 else 0) = h.accesses c.main s := by
  obtain ⟨⟨t, active, fs⟩, main⟩ := c
  obtain rfl : main = .step o k := hmain
  obtain ⟨hidle, hfresh, halong, hstate, hout⟩ := hc
  obtain rfl : active = none := hidle
  obtain rfl : fs = [] := hfresh
  have ⟨hquiet, hrest⟩ := halong
  cases a with
  | event e => exact ⟨s, ⟨rfl, rfl, halong, hq.event o e s t hquiet hstate, hout⟩, rfl⟩
  | call d =>
      have hrefused : h.act ⟨t, none, []⟩ (.call d) = ⟨t, none, []⟩ := by
        show (if h.pending t then _ else _) = _
        rw [hq.masked o s t hquiet hstate]
        rfl
      refine ⟨s, ?_, rfl⟩
      show Booting h R E out ⟨h.act ⟨t, none, []⟩ (.call d), .step o k⟩ s
      rw [hrefused]
      exact ⟨rfl, rfl, halong, hstate, hout⟩
  | cpu =>
      obtain ⟨hanswer, hnext⟩ := hq.exec o s t hquiet hstate
      have hmain' : (h.bootAct ⟨⟨t, none, []⟩, .step o k⟩ .cpu).main = k (h.exec o s).1 :=
        congrArg k hanswer
      refine ⟨(h.exec o s).2, ⟨rfl, rfl, ?_, hnext, ?_⟩, ?_⟩
      · rw [hmain']
        exact hrest
      · rw [hmain']
        exact hout
      · rw [hmain']
        rfl

/-- **Quiet start-up code runs as if alone**: up to its end no call has been taken, and after it
the run is one of the handler, from the state the code leaves by itself. -/
theorem boot_undisturbed (hq : h.Undisturbed R E) {out : B × S} :
    ∀ (as : List (Action Ev C)) {c : Core Op Resp S C A B} {s : S},
      Booting h R E out c s →
      (∃ s' o k, Booting h R E out (h.boot c as) s' ∧ (h.boot c as).main = .step o k) ∨
        ∃ as' t, E out.2 t ∧ (h.boot c as).main = .ret out.1 ∧
          (h.boot c as).node = h.run (Host.start t) as' := by
  intro as
  induction as with
  | nil =>
      intro c s hc
      obtain ⟨⟨t, active, fs⟩, main⟩ := c
      obtain ⟨hidle, hfresh, halong, hstate, hout⟩ := hc
      cases main with
      | ret b =>
          refine .inr ⟨[], t, ?_, ?_, ?_⟩
          · rw [← hout]
            exact hstate
          · rw [← hout]
            rfl
          · show (⟨t, active, fs⟩ : Node Op Resp S C A) = _
            rw [show active = none from hidle, show fs = [] from hfresh]
            rfl
      | step o k => exact .inl ⟨s, o, k, ⟨hidle, hfresh, halong, hstate, hout⟩, rfl⟩
  | cons a as ih =>
      intro c s hc
      cases hmain : c.main with
      | ret b =>
          obtain ⟨⟨t, active, fs⟩, main⟩ := c
          obtain ⟨hidle, hfresh, halong, hstate, hout⟩ := hc
          obtain rfl : main = .ret b := hmain
          obtain rfl : active = none := hidle
          obtain rfl : fs = [] := hfresh
          refine .inr ⟨a :: as, t, ?_, ?_, ?_⟩
          · rw [← hout]
            exact hstate
          · rw [boot_ret, ← hout]
            rfl
          · rw [boot_ret]
            rfl
      | step o k =>
          obtain ⟨s', hnext, -⟩ := hc.act hq hmain a
          exact ih hnext

/-- **It ends with its last access**, and its accesses are as many as those it makes by itself. -/
theorem boot_ends_iff (hq : h.Undisturbed R E) {out : B × S} :
    ∀ (as : List (Action Ev C)) {c : Core Op Resp S C A B} {s : S}, Booting h R E out c s →
      ((h.boot c as).main = .ret out.1 ↔ h.accesses c.main s ≤ as.countP Action.isCpu) := by
  intro as
  induction as with
  | nil =>
      intro c s hc
      show c.main = .ret out.1 ↔ _
      have hout := hc.out
      cases hmain : c.main with
      | ret b =>
          rw [hmain] at hout
          exact iff_of_true (by rw [← hout]; rfl) (Nat.le_refl 0)
      | step o k => exact iff_of_false (by simp) (by simp [Device.accesses])
  | cons a as ih =>
      intro c s hc
      have hout := hc.out
      cases hmain : c.main with
      | ret b =>
          rw [hmain] at hout
          obtain ⟨n, main⟩ := c
          obtain rfl : main = .ret b := hmain
          rw [boot_ret]
          exact iff_of_true (by rw [← hout]; rfl) (Nat.zero_le _)
      | step o k =>
          obtain ⟨s', hnext, hcount⟩ := hc.act hq hmain a
          show (h.boot (h.bootAct c a) as).main = .ret out.1 ↔ _
          rw [ih hnext, ← hmain, ← hcount, List.countP_cons]
          omega

end IrqHost

end DeviceProgram
