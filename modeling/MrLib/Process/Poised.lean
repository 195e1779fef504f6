import MrLib.Process.Program

/-!
# What a thread may do, thread by thread

A thread is verified against an environment `env` whose states `V` are what this thread may rely on: `env v c r v'` says
which calls it may make when it sees `v`, what they may return, and what it sees then. `Poised` is total correctness
at a call; `Follows` says that a thread is poised at its call, or has ended as it should. `go_spec` is the step lemma:
when the call has come back, the thread reads and records what it likes (`Noted`) and is poised again.
-/

namespace MrLib

open Conc

variable {ω α Φ V : Type}

/-- A call of sequential code may return this. The model does not go on after something undefined, so anything may
be assumed there. -/
def IoOk : Io → IoRet → Prop
  | .log _ _, .int _ | .writeN _ _, .int _ => True
  | .sys e, .sys r => e.undefined = true ∨ e.mayReturn (fun _ => .other) r = true
  | _, _ => False

def IoRet.inThread : IoRet → PRet ω
  | .int r => .int r
  | .sys r => .sys r

/-- At a call that may be made, with a correct program after it. -/
def Poised (env : V → PCall ω → PRet ω → V → Prop) (E : α → V → Prop) (v : V) (f : PFrame ω α) : Prop :=
  (Prog.call f.call f.next).Wp env E v

/-- The calls that are none, one after the other. -/
inductive Noted (env : V → PCall ω → PRet ω → V → Prop) (t : Tid) : V → Shared ω → V → Shared ω → Prop
  | refl {v : V} {m : Shared ω} : Noted env t v m v m
  | step {v v' v'' : V} {m m' m'' : Shared ω} {c : PCall ω} {r : PRet ω} (he : m.exec t c = some (r, m'))
      (hv : env v c r v') (h : Noted env t v' m' v'' m'') : Noted env t v m v'' m''

theorem Noted.trans {env : V → PCall ω → PRet ω → V → Prop} {t : Tid} {v v' v'' : V} {m m' m'' : Shared ω}
    (h : Noted env t v m v' m') (h' : Noted env t v' m' v'' m'') : Noted env t v m v'' m'' := by
  induction h with
  | refl => exact h'
  | step he hv _ ih => exact .step he hv (ih h')

/-- How a piece of a thread function may end: with a code, or at a cut. -/
def Ends (J : Φ → V → Prop) (X : Int → V → Prop) : Except Int Φ → V → Prop
  | .error code, v => X code v
  | .ok ph, v => J ph v

/-- `K` ties what a thread sees to the memory: what it reads and records comes back as the environment says. -/
def Reads (env : V → PCall ω → PRet ω → V → Prop) (t : Tid) (K : V → Shared ω → Prop) : Prop :=
  ∀ v m c r m', K v m → (∃ r v', env v c r v') → m.exec t c = some (r, m') → ∃ v', env v c r v' ∧ K v' m'

section

variable {env : V → PCall ω → PRet ω → V → Prop} {E : α → V → Prop} {t : Tid} {K : V → Shared ω → Prop}

/-- A program runs to its next call. -/
theorem runOn_spec (hK : Reads env t K) (p : ThreadProg ω α) {v : V} {m : Shared ω} (hk : K v m) (h : p.Wp env E v) :
    ∃ v', Noted env t v m v' (runOn t p m).2 ∧ K v' (runOn t p m).2 ∧
      match (runOn t p m).1 with
      | .inl f => Poised env E v' f ∧ (runOn t p m).2.exec t f.call = none
      | .inr a => E a v' := by
  induction p generalizing v m with
  | ret a => exact ⟨v, .refl, hk, h⟩
  | call c k ih =>
    cases he : m.exec t c with
    | none =>
      simp only [runOn, he]
      exact ⟨v, .refl, hk, h, trivial⟩
    | some x =>
      obtain ⟨r, m'⟩ := x
      obtain ⟨v1, hv1, hk1⟩ := hK v m c r m' hk h.1 he
      obtain ⟨v2, hn, hrest⟩ := ih r hk1 (h.2 r v1 hv1)
      simp only [runOn, he]
      exact ⟨v2, .step he hv1 hn, hrest⟩

/-- What a thread does next is correct. -/
inductive Waiting (env : V → PCall ω → PRet ω → V → Prop) (J : Φ → V → Prop) (X : Int → V → Prop) (v : V)
    (m : Shared ω) (t : Tid) : Next (Option ω) 1 (PFrame ω (Except Int Φ)) → Prop
  | call (f : PFrame ω (Except Int Φ)) (h : Poised env (Ends J X) v f) (he : m.exec t f.call = none) :
      Waiting env J X v m t f.enter
  | done (code : Int) (h : X code v) : Waiting env J X v m t (.done code)
  | stuck (x : Except Int Φ) (h : Ends J X x v) : Waiting env J X v m t (.own .stuck)

/-- **A thread goes on**, provided that every piece of it is correct. -/
theorem go_spec {C : ProcessCode ω Φ} {J : Φ → V → Prop} {X : Int → V → Prop} (hK : Reads env t K)
    (hJ : ∀ ph v, J ph v → (C.body ph).run.Wp env (Ends J X) v) {p : ThreadProg ω (Except Int Φ)} {v : V}
    {m : Shared ω} (hk : K v m) (h : p.Wp env (Ends J X) v) :
    ∃ v', Noted env t v m v' (C.go t p m).2 ∧ K v' (C.go t p m).2 ∧
      Waiting env J X v' (C.go t p m).2 t (C.go t p m).1 := by
  obtain ⟨v1, hn1, hk1, h1⟩ := runOn_spec hK p hk h
  unfold ProcessCode.go
  split <;> rename_i m1 heq <;> rw [heq] at hn1 hk1 h1
  · exact ⟨v1, hn1, hk1, .call _ h1.1 h1.2⟩
  · exact ⟨v1, hn1, hk1, .done _ h1⟩
  · rename_i ph
    obtain ⟨v2, hn2, hk2, h2⟩ := runOn_spec hK (C.body ph).run hk1 (hJ ph v1 h1)
    split <;> rename_i m2 heq2 <;> rw [heq2] at hn2 hk2 h2
    · exact ⟨v2, hn1.trans hn2, hk2, .call _ h2.1 h2.2⟩
    · exact ⟨v2, hn1.trans hn2, hk2, .stuck _ h2⟩

end

/-! ## Rules for the programs -/

section Rules

variable {β : Type} {env : V → PCall ω → PRet ω → V → Prop} {Q : Except Int α → V → Prop} {v : V}

/-- A sequence: what returns in its first part has returned. -/
theorem wp_th_bind {f : Th ω β} {k : β → Th ω α} (h : f.run.Wp env (fun x v' => match x with
      | .ok b => (k b).run.Wp env Q v'
      | .error c => Q (.error c) v') v) : (f >>= k).run.Wp env Q v := by
  change (f.run >>= _ : ThreadProg ω (Except Int α)).Wp env Q v
  rw [Prog.wp_bind]
  refine h.mono fun x v' hx => ?_
  cases x <;> exact hx

/-- A call, and what follows it. -/
theorem wp_th_call {c : PCall ω} {f : PRet ω → β} {k : β → Th ω α} (hex : ∃ r v', env v c r v')
    (h : ∀ r v', env v c r v' → (k (f r)).run.Wp env Q v') : (Th.call c f >>= k).run.Wp env Q v :=
  ⟨hex, fun r v' he => h r v' he⟩

theorem wp_returns {code : Int} (h : Q (.error code) v) : (returns code : Th ω α).run.Wp env Q v := h

theorem wp_ite {c : Prop} [Decidable c] {p q : Th ω α} (hp : c → p.run.Wp env Q v) (hq : ¬ c → q.run.Wp env Q v) :
    (if c then p else q : Th ω α).run.Wp env Q v := by
  split
  · exact hp ‹_›
  · exact hq ‹_›

/-- `SYSCALL_EXIT_CHECK` of a result that is not `-1`, and of one that is. -/
theorem wp_exitCheck {r : Int} {command : Th ω Unit} {k : Th ω α}
    (hok : r ≠ -1 → k.run.Wp env Q v)
    (hfail : r = -1 → (do command; returns exitFailure : Th ω α).run.Wp env Q v) :
    (do syscallExitCheck r command; k : Th ω α).run.Wp env Q v := by
  by_cases hr : r = -1
  · simp only [syscallExitCheck, hr, if_true]
    have := hfail hr
    refine wp_th_bind (wp_th_bind ?_)
    change (command >>= fun _ => _ : Th ω α).run.Wp env Q v at this
    change (command.run >>= _ : ThreadProg ω (Except Int α)).Wp env Q v at this
    rw [Prog.wp_bind] at this
    refine this.mono fun x v' hx => ?_
    cases x <;> exact hx
  · simp only [syscallExitCheck, hr, if_false]
    exact hok hr

/-- Sequential code starts with its first call. -/
theorem run_io_call {c : Io} {f : IoRet → IoProg β} {k : β → Th ω α} :
    ∃ k', ((liftM (inThread (.call c f) : ThreadProg ω β) : Th ω β) >>= k).run = .call (.io c) k' := by
  refine ⟨?_, ?_⟩
  rotate_left
  · change ((inThread (.call c f) >>= fun b => Prog.ret (Except.ok b)) >>= _ : ThreadProg ω (Except Int α)) = _
    rw [inThread]
    rfl

/-- A call of sequential code. -/
theorem wp_io_call {c : Io} {f : IoRet → IoProg β} {k : β → Th ω α} (hex : ∃ r v', env v (.io c) r v')
    (h : ∀ r v', env v (.io c) r v' → ∃ r0, r = r0.inThread ∧
      ((liftM (inThread (f r0) : ThreadProg ω β) : Th ω β) >>= k).run.Wp env Q v') :
    ((liftM (inThread (.call c f) : ThreadProg ω β) : Th ω β) >>= k).run.Wp env Q v := by
  change ((inThread (.call c f) >>= fun b => Prog.ret (Except.ok b)) >>= _ : ThreadProg ω (Except Int α)).Wp env Q v
  rw [inThread]
  refine ⟨hex, fun r v' he => ?_⟩
  obtain ⟨r0, rfl, hr⟩ := h r v' he
  cases r0 <;> exact hr

/-- Sequential code. -/
theorem wp_inThread {S : Type} {ioEnv : S → Io → IoRet → S → Prop} {K : S → V → Prop}
    (hio : ∀ s v, K s v → ∀ c, (∃ r s', ioEnv s c r s') → (∃ r v', env v (.io c) r v') ∧
      ∀ r v', env v (.io c) r v' → ∃ r0 s', r = r0.inThread ∧ ioEnv s c r0 s' ∧ K s' v')
    {p : IoProg β} {k : β → Th ω α} {s : S} (hk : K s v)
    (h : p.Wp ioEnv (fun b s' => ∀ v', K s' v' → (k b).run.Wp env Q v') s) :
    ((liftM (inThread p : ThreadProg ω β) : Th ω β) >>= k).run.Wp env Q v := by
  induction p generalizing s v with
  | ret b => exact h v hk
  | call c kk ih =>
    obtain ⟨hex, hall⟩ := hio s v hk c h.1
    refine wp_io_call hex fun r v' he => ?_
    obtain ⟨r0, s', rfl, he', hk'⟩ := hall r v' he
    exact ⟨r0, rfl, ih r0 hk' (h.2 r0 s' he')⟩

end Rules

end MrLib
