import MrLib.Emit
import MrLib.Lib.Walk
import MrLib.Process.Simulation

/-!
# What each thread of a process has done

In a reachable state of a process every thread has a trace: the calls its thread function has made so far, with what
came back (`Traced`). `Told` says what one step adds to the trace of the thread that moves: nothing while the thread is
inside a callee, and when the callee returns (`ComesBack`) the call with its answer, and then the calls that are none, up
to the next call.

The threads have made their calls in the order of their code (`ProcessCode.Trod`), so that a thread function that is
totally correct in some environment has seen a walk of that environment (`Trod.wp`), whatever the other threads did.
-/

namespace MrLib

open Conc

variable {ω Φ : Type}

/-- The calls of a thread, with their answers. -/
abbrev ThreadTrace (ω : Type) := List (PCall ω × PRet ω)

/-- The thread function of `t`. -/
def ProcessCode.start (C : ProcessCode ω Φ) : Tid → ThreadProg ω (Except Int Φ)
  | .controller => C.main.run
  | .worker _ => C.worker.run

/-- Thread `t` has come to `p` by the calls `τ`. -/
abbrev ProcessCode.Trod (C : ProcessCode ω Φ) (t : Tid) (τ : ThreadTrace ω) (p : ThreadProg ω (Except Int Φ)) : Prop :=
  Prog.Trod (C.start t) (fun ph => (C.body ph).run) τ p

/-- The calls that are none. -/
def PCall.silent : PCall ω → Bool
  | .share _ | .load _ | .note _ => true
  | _ => false

/-- What the history says of a call. -/
def PCall.event? : PCall ω → Option (Event ω)
  | .note e => some e
  | .load x => some (.read x)
  | _ => none

/-- The events of a trace. -/
def eventsIn (τ : ThreadTrace ω) : List (Event ω) := τ.filterMap fun x => x.1.event?

/-- The events of a thread. -/
def eventsBy (t : Tid) (es : List (Tid × Event ω)) : List (Event ω) := (es.filter fun x => x.1 = t).map Prod.snd

/-- What a call may have returned: `A` holds of the answers of the system, and nothing has failed if `W`. -/
def PCall.Fits (A : Sys → Ret Val → Prop) (W : Prop) (c : PCall ω) (r : PRet ω) : Prop :=
  match c with
  | .io (.log _ _) => ∃ n, r = .int n ∧ (W → n = 0)
  | .io (.writeN _ _) => False
  | .io (.sys e) => ∃ r0, r = .sys r0 ∧ A e r0
  | .push _ | .close => ∃ n, r = .int n ∧ (n = 0 ∨ n = -1) ∧ (W → n = 0)
  | .emit _ => ∃ n, r = .int n ∧ (W → n = 0)
  | .create _ => ∃ n, r = .int n ∧ (n = 0 ∨ n = -1) ∧ (W → n = 0)
  | .pop => ∃ n x, r = .popped n x ∧ (n = 0 ∨ x = none) ∧ (W → n = 0 ∨ n = 1)
  | .join _ => ∃ x, r = .joined x ∧ (W → x ≠ none)
  | .share _ | .note _ => r = .done
  | .load _ => ∃ n, r = .node n

/-! ## Running to the next call -/

section

variable {A : Sys → Ret Val → Prop} {W : Prop} {C : ProcessCode ω Φ} {t : Tid} {τ : ThreadTrace ω} {m m' : Shared ω}

theorem exec_spec {c : PCall ω} {r : PRet ω} (h : m.exec t c = some (r, m')) :
    c.silent = true ∧ c.Fits A W r ∧ m'.events = m.events ++ (eventsIn [(c, r)]).map fun e => (t, e) := by
  cases c with
  | share heap =>
    cases h
    exact ⟨rfl, rfl, (List.append_nil _).symm⟩
  | load x =>
    cases h
    exact ⟨rfl, ⟨_, rfl⟩, rfl⟩
  | note e =>
    cases h
    exact ⟨rfl, rfl, rfl⟩
  | _ => cases h

/-- The calls `σ` are none, and lead from the memory `m` to `m'`. -/
structure Silent (A : Sys → Ret Val → Prop) (W : Prop) (t : Tid) (σ : ThreadTrace ω) (m m' : Shared ω) : Prop where
  silent : ∀ x ∈ σ, x.1.silent = true
  fits : ∀ x ∈ σ, x.1.Fits A W x.2
  events : m'.events = m.events ++ (eventsIn σ).map fun e => (t, e)

theorem Silent.nil (A : Sys → Ret Val → Prop) (W : Prop) (t : Tid) (m : Shared ω) : Silent A W t [] m m :=
  ⟨nofun, nofun, (List.append_nil _).symm⟩

theorem Silent.append {σ σ' : ThreadTrace ω} {m'' : Shared ω} (h : Silent A W t σ m m') (h' : Silent A W t σ' m' m'') :
    Silent A W t (σ ++ σ') m m'' where
  silent x hx := (List.mem_append.mp hx).elim (h.silent x) (h'.silent x)
  fits x hx := (List.mem_append.mp hx).elim (h.fits x) (h'.fits x)
  events := by rw [h'.events, h.events]; simp [eventsIn]

/-- A program has run to its next call, or to its end. -/
theorem runOn_trod (A : Sys → Ret Val → Prop) (W : Prop) (p : ThreadProg ω (Except Int Φ)) :
    ∀ {τ : ThreadTrace ω} (m : Shared ω), C.Trod t τ p → ∃ σ, Silent A W t σ m (runOn t p m).2 ∧
      match (runOn t p m).1 with
      | .inl f => C.Trod t (τ ++ σ) (.call f.call f.next) ∧ (runOn t p m).2.exec t f.call = none
      | .inr a => C.Trod t (τ ++ σ) (.ret a) := by
  induction p with
  | ret a =>
    intro τ m h
    exact ⟨[], .nil A W t m, by rw [List.append_nil]; exact h⟩
  | call c k ih =>
    intro τ m h
    cases he : m.exec t c with
    | none =>
      simp only [runOn, he]
      exact ⟨[], .nil A W t m, by rw [List.append_nil]; exact h, trivial⟩
    | some x =>
      obtain ⟨r, m1⟩ := x
      obtain ⟨hs, hf, hev⟩ := exec_spec (A := A) (W := W) he
      obtain ⟨σ, hσ, hrest⟩ := ih r m1 (h.call r)
      have h1 : Silent A W t [(c, r)] m m1 :=
        ⟨fun x hx => by rw [List.mem_singleton.mp hx]; exact hs, fun x hx => by rw [List.mem_singleton.mp hx]; exact hf,
          hev⟩
      simp only [runOn, he]
      refine ⟨(c, r) :: σ, h1.append hσ, ?_⟩
      rw [List.append_assoc] at hrest
      exact hrest

/-! ## Where a thread is -/

/-- A queue operation that the thread function has called by `c`. -/
def QLoc.Of : QLoc (Option ω) 1 → PCall ω → Prop
  | .pushLock y, c | .pushWait y, c => ∃ x, y = cell x ∧ c = .push x
  | .pushSignal, c | .pushUnlock, c | .pushFailed, c => ∃ x, c = .push x
  | .popLock, c | .popWait, c | .popSignal _, c | .popUnlock _, c | .popClosed, c | .popFailed, c => c = .pop
  | .closeLock, c | .closeBroadcast, c | .closeUnlock, c | .closeFailed, c => c = .close

/-- Thread `t` is at `l`, and has made the calls `τ`. -/
def ProcessCode.At (C : ProcessCode ω Φ) (t : Tid) (τ : ThreadTrace ω) :
    TLoc (Option ω) 1 (PFrame ω (Except Int Φ)) → Prop
  | .absent => τ = []
  | .done code => C.Trod t τ (.ret (.error code))
  | .log _ f => C.Trod t τ (.call f.call f.next) ∧ ∃ level format, f.call = .io (.log level format)
  | .queue q f => C.Trod t τ (.call f.call f.next) ∧ q.Of f.call
  | .emit m _ f => C.Trod t τ (.call f.call f.next) ∧ f.call = .emit m
  | .own f => f.own = .sys .stuck ∧ (∃ p, C.Trod t τ p) ∨ C.Trod t τ (.call f.call f.next) ∧
      ((∃ e, f.call = .io (.sys e)) ∨ (∃ i, f.call = .create i) ∨ ∃ i, f.call = .join i)

/-- It makes its next call. -/
theorem at_enter {f : PFrame ω (Except Int Φ)} (h : C.Trod t τ (.call f.call f.next)) (he : m.exec t f.call = none) :
    C.At t τ f.enter.enter := by
  obtain ⟨c, k⟩ := f
  cases c with
  | io c =>
    cases c with
    | log level format => exact ⟨h, level, format, rfl⟩
    | writeN fd bs => exact .inl ⟨rfl, _, h⟩
    | sys e => exact .inr ⟨h, .inl ⟨e, rfl⟩⟩
  | push x => exact ⟨h, x, rfl, rfl⟩
  | pop => exact ⟨h, rfl⟩
  | close => exact ⟨h, rfl⟩
  | emit m => exact ⟨h, rfl⟩
  | create i => exact .inr ⟨h, .inr (.inl ⟨i, rfl⟩)⟩
  | join i => exact .inr ⟨h, .inr (.inr ⟨i, rfl⟩)⟩
  | share heap => cases he
  | load x => cases he
  | note e => cases he

/-- A thread goes on. -/
theorem go_trod (A : Sys → Ret Val → Prop) (W : Prop) {p : ThreadProg ω (Except Int Φ)} (m : Shared ω)
    (h : C.Trod t τ p) : ∃ σ, Silent A W t σ m (C.go t p m).2 ∧ C.At t (τ ++ σ) (C.go t p m).1.enter := by
  obtain ⟨σ, hσ, h1⟩ := runOn_trod A W p m h
  unfold ProcessCode.go
  split <;> rename_i m1 heq <;> rw [heq] at hσ h1
  · exact ⟨σ, hσ, at_enter h1.1 h1.2⟩
  · exact ⟨σ, hσ, h1⟩
  · rename_i ph
    obtain ⟨σ', hσ', h2⟩ := runOn_trod A W (C.body ph).run m1 h1.next
    split <;> rename_i m2 heq2 <;> rw [heq2] at hσ' h2
    · exact ⟨σ ++ σ', hσ.append hσ', by rw [← List.append_assoc]; exact at_enter h2.1 h2.2⟩
    · exact ⟨σ ++ σ', hσ.append hσ', .inl ⟨rfl, _, by rw [← List.append_assoc]; exact h2⟩⟩

end

/-! ## What a step tells -/

section

variable {C : ProcessCode ω Φ} {s s' : PoolState ω Φ} {a : Act Tid Val} {t : Tid} {τ : ThreadTrace ω}
  {A : Sys → Ret Val → Prop} {W : Prop}

/-- In this step the callee of `t` returns to the thread function, whose call `c` has the answer `r`. -/
inductive ComesBack (s : PoolState ω Φ) (a : Act Tid Val) (t : Tid) : PCall ω → PRet ω → Prop
  | log {l : LogLoc} {f : PFrame ω (Except Int Φ)} {level : Level} {format : String} {r : Ret Val} {n : Int}
      (hl : s.loc t = .log l f) (hn : l.next r = .inr n) (ha : a.returns t r) :
      ComesBack s a t (.io (.log level format)) (.int n)
  | queue {q : QLoc (Option ω) 1} {f : PFrame ω (Except Int Φ)} {c : PCall ω} {r : Ret Val} {b : QRet (Option ω)}
      (hl : s.loc t = .queue q f) (hq : q.Of c) (hn : (q.next s.mem.queue r).1 = .inr b) (ha : a.returns t r)
      (hr : r = .ok ∨ r = .fail) : ComesBack s a t c (c.answer (.queue b))
  | emit {m : Msg} {e : EmitLoc} {f : PFrame ω (Except Int Φ)} {r : Ret Val} {n : Int} (hl : s.loc t = .emit m e f)
      (hn : (e.next m s.mem.stdout r).1 = .inr n) (ha : a.returns t r) : ComesBack s a t (.emit m) (.int n)
  | sys {e : Sys} {f : PFrame ω (Except Int Φ)} {r : Ret Val} (hl : s.loc t = .own f) (hc : f.call = .io (.sys e))
      (ha : a = .ret t r) : ComesBack s a t (.io (.sys e)) (.sys r)
  | create {i : Nat} {f : PFrame ω (Except Int Φ)} {r : Ret Val} (hl : s.loc t = .own f) (hc : f.call = .create i)
      (ha : a = .ret t r) (hr : r = .ok ∨ r = .fail) :
      ComesBack s a t (.create i) ((PCall.create i : PCall ω).answer (.own r))
  | join {i : Nat} {f : PFrame ω (Except Int Φ)} {r : Ret Val} (hl : s.loc t = .own f) (hc : f.call = .join i)
      (ha : a.returns t r) (hr : (∃ k, r = .code k) ∨ r = .fail) :
      ComesBack s a t (.join i) ((PCall.join i : PCall ω).answer (.own r))

/-- What the trace of `t` grows by when its call has returned `r`, and the memory the thread leaves. -/
inductive Told (A : Sys → Ret Val → Prop) (W : Prop) (s : PoolState ω Φ) (a : Act Tid Val) (t : Tid) (r : Ret Val)
    (m' : Shared ω) : ThreadTrace ω → Prop
  | inside (hm : m' = s.mem.user) (hown : ∀ f, s.loc t ≠ .own f)
      (hemit : ∀ m e f n, s.loc t = .emit m e f → (e.next m s.mem.stdout r).1 ≠ .inr n) : Told A W s a t r m' []
  | back {c : PCall ω} {x : PRet ω} {σ : ThreadTrace ω} (h : ComesBack s a t c x) (hσ : Silent A W t σ s.mem.user m') :
      Told A W s a t r m' ((c, x) :: σ)

/-- The callee has returned. -/
theorem told_back {r : Ret Val} {f : PFrame ω (Except Int Φ)} (h : C.Trod t τ (.call f.call f.next)) {b : Back (Option ω)}
    {x : Mem (Option ω) (Shared ω)} (hx : x.user = s.mem.user) (hb : ComesBack s a t f.call (f.call.answer b)) :
    ∃ σ, Told A W s a t r (C.client.resume t f b x).2.user σ ∧ C.At t (τ ++ σ) (C.client.resume t f b x).1 := by
  obtain ⟨σ, hσ, hat⟩ := go_trod A W x.user (h.call (f.call.answer b))
  refine ⟨(f.call, f.call.answer b) :: σ, .back hb (by rw [← hx]; exact hσ), ?_⟩
  rw [List.append_assoc] at hat
  exact hat

/-- A queue operation that goes on is still the same. -/
theorem QLoc.Of.next {q q' : QLoc (Option ω) 1} {c : PCall ω} (h : q.Of c) {Q Q' : Queue (Option ω)} {r : Ret Val}
    (hn : q.next Q r = (.inl q', Q')) : q'.Of c := by
  have test : ∀ {y : Elem (Option ω) 1} {Q1 : Queue (Option ω)}, (∃ x, y = cell x ∧ c = .push x) →
      Q.pushTest y = (q', Q1) → q'.Of c := by
    intro y Q1 hc he
    unfold Queue.pushTest at he
    split at he
    · cases he
      exact hc
    · cases he
      obtain ⟨x, -, hc⟩ := hc
      exact ⟨x, hc⟩
  have testPop : ∀ {Q1 : Queue (Option ω)}, c = .pop → Q.popTest = (q', Q1) → q'.Of c := by
    intro Q1 hc he
    unfold Queue.popTest at he
    split at he
    · split at he
      · cases he
        exact hc
      · cases he
        exact hc
    · cases he
      exact hc
  cases q with
  | pushLock y | pushWait y =>
    cases r with
    | ok =>
      simp only [QLoc.next, Prod.map, id_eq, Prod.mk.injEq, Sum.inl.injEq] at hn
      exact test h (Prod.ext hn.1 hn.2)
    | _ =>
      cases hn
      try exact h.imp fun x hx => hx.2
  | pushSignal | pushUnlock | pushFailed =>
    cases r <;> cases hn <;> exact h
  | popLock | popWait =>
    cases r with
    | ok =>
      simp only [QLoc.next, Prod.map, id_eq, Prod.mk.injEq, Sum.inl.injEq] at hn
      exact testPop h (Prod.ext hn.1 hn.2)
    | _ =>
      cases hn
      try exact h
  | _ => cases r <;> cases hn <;> exact h

/-- **A call of a thread has returned.** -/
theorem told_call {r : Ret Val} (hat : C.At t τ (s.loc t)) (hr : (runtime C.client).Answers s t r) (ha : a.returns t r)
    (hx : (runtime C.client).Direct s a t r)
    (hio : ∀ e, (runtime C.client).call (s.loc t) = .ext e → e.mayReturn (fun _ => .other) r = true) :
    ∃ σ, Told A W s a t r ((runtime C.client).next t (s.loc t) r s.mem).2.user σ ∧
      C.At t (τ ++ σ) ((runtime C.client).next t (s.loc t) r s.mem).1 := by
  cases hl : s.loc t with
  | absent => simp [Code.Answers, hl, runtime, TLoc.call] at hr
  | done code => simp [Code.Answers, hl, runtime, TLoc.call] at hr
  | log l f =>
    rw [hl] at hat
    obtain ⟨h, level, format, hc⟩ := hat
    simp only [runtime, TLoc.next]
    cases hn : l.next r with
    | inl l' =>
      exact ⟨[], .inside rfl (by simp [hl]) (by simp [hl]), by rw [List.append_nil]; exact ⟨h, level, format, hc⟩⟩
    | inr n =>
      refine told_back (b := .log n) h rfl ?_
      rw [hc]
      exact .log hl hn ha
  | queue q f =>
    rw [hl] at hat
    obtain ⟨h, hq⟩ := hat
    simp only [runtime, TLoc.next]
    rcases hn : q.next s.mem.queue r with ⟨q' | b, Q⟩
    · exact ⟨[], .inside rfl (by simp [hl]) (by simp [hl]), by rw [List.append_nil]; exact ⟨h, hq.next hn⟩⟩
    · refine told_back h rfl (.queue hl hq (by rw [hn]) ha ?_)
      rw [Code.Answers, hl] at hr
      cases q <;> exact hr
  | emit m e f =>
    rw [hl] at hat
    obtain ⟨h, hc⟩ := hat
    simp only [runtime, TLoc.next]
    rcases hn : e.next m s.mem.stdout r with ⟨e' | n, o⟩
    · refine ⟨[], .inside rfl (by simp [hl]) ?_, by rw [List.append_nil]; exact ⟨h, hc⟩⟩
      intro m1 e1 f1 n hl1 hn1
      rw [hl] at hl1
      cases hl1
      rw [hn] at hn1
      cases hn1
    · refine told_back (b := .emit n) h rfl ?_
      rw [hc]
      exact .emit hl (by rw [hn]) ha
  | own f =>
    rw [hl] at hat hio
    rcases hat with ⟨hst, -⟩ | ⟨h, ⟨e, hc⟩ | ⟨i, hc⟩ | ⟨i, hc⟩⟩
    · have := hio .stuck (by simp [runtime, TLoc.call, ProcessCode.client, hst, OwnCall.call])
      cases this
    · have hcall : (runtime C.client).call (s.loc t) = .ext e := by
        simp [hl, runtime, TLoc.call, ProcessCode.client, PFrame.own, hc, OwnCall.call]
      refine told_back (b := .own r) h rfl ?_
      rw [hc]
      exact .sys hl hc (hx e hcall)
    · have hr' : r = .fail := by
        simpa [Code.Answers, hl, runtime, TLoc.call, ProcessCode.client, PFrame.own, hc, OwnCall.call] using hr
      subst hr'
      refine told_back (b := .own .fail) h rfl ?_
      rw [hc]
      exact .create hl hc ha.fail (.inr rfl)
    · simp only [Code.Answers, hl, runtime, TLoc.call, ProcessCode.client, PFrame.own, hc, OwnCall.call] at hr
      refine told_back (b := .own r) h rfl ?_
      rw [hc]
      refine .join hl hc ha ?_
      rcases hr with rfl | ⟨k, -, rfl⟩
      · exact .inr rfl
      · exact .inl ⟨k, rfl⟩

/-- Every thread is where its trace has led it. -/
def ProcessCode.Trodden (C : ProcessCode ω Φ) (s : PoolState ω Φ) (τ : Tid → ThreadTrace ω) : Prop :=
  ∀ t, C.At t (τ t) (s.loc t)

/-- The threads after a step, with their traces: only that of the thread that moves may have grown. -/
inductive Grown (A : Sys → Ret Val → Prop) (W : Prop) (C : ProcessCode ω Φ) (s : PoolState ω Φ) (a : Act Tid Val)
    (s' : PoolState ω Φ) (τ : Tid → ThreadTrace ω) : (Tid → ThreadTrace ω) → Prop
  | stay (ha : ∀ t r, a ≠ .ret t r) (hl : s'.loc = s.loc) (hm : s'.mem = s.mem) : Grown A W C s a s' τ τ
  | call (t : Tid) (r : Ret Val) (σ : ThreadTrace ω) (hr : (runtime C.client).Answers s t r) (ha : a.returns t r)
      (hx : (runtime C.client).Direct s a t r)
      (hl : s'.loc = Function.update s.loc t ((runtime C.client).next t (s.loc t) r s.mem).1)
      (hm : s'.mem = ((runtime C.client).next t (s.loc t) r s.mem).2) (hσ : Told A W s a t r s'.mem.user σ) :
      Grown A W C s a s' τ (Function.update τ t (τ t ++ σ))
  | create (t : Tid) (i : Nat) (σ : ThreadTrace ω) (f : PFrame ω (Except Int Φ)) (ha : a = .ret t .ok) (hf : s.loc t = .own f)
      (hc : f.call = .create i) (hi : s.loc (.worker i) = .absent)
      (hl : s'.loc = Function.update (Function.update s.loc (.worker i) ((runtime C.client).entry (.worker i))) t
        (C.client.resume t f (.own .ok) s.mem).1)
      (hm : s'.mem = (C.client.resume t f (.own .ok) s.mem).2) (hσ : Told A W s a t .ok s'.mem.user σ) :
      Grown A W C s a s' τ (Function.update τ t (τ t ++ σ))

/-- The call that creates a thread. -/
theorem own_of_create {l : TLoc (Option ω) 1 (PFrame ω (Except Int Φ))} {u : Tid}
    (h : (runtime C.client).call l = .thrdCreate u) : ∃ f i, l = .own f ∧ f.call = .create i ∧ u = .worker i := by
  cases l with
  | own f =>
    have hc : (PFrame.own f).call = Call.thrdCreate u := h
    unfold PFrame.own at hc
    split at hc
    · cases hc
    · cases hc
      exact ⟨f, _, rfl, by assumption, rfl⟩
    · cases hc
    · cases hc
  | queue q f => cases q <;> cases h
  | emit m e f => cases e <;> cases h
  | _ => cases h

/-- A thread that has not been created. -/
theorem loc_of_absent {D : Client Tid (Option ω) 1 (Shared ω) (PFrame ω (Except Int Φ))}
    {l : TLoc (Option ω) 1 (PFrame ω (Except Int Φ))} (h : (runtime D).call l = .absent) : l = .absent := by
  cases l with
  | absent => rfl
  | own f =>
    have hc : (D.call f).call = .absent := h
    cases ho : D.call f <;> rw [ho] at hc <;> cases hc
  | queue q f => cases q <;> cases h
  | emit m e f => cases e <;> cases h
  | _ => cases h

/-- **The step lemma of the traces.** A worker starts with a call. -/
theorem ProcessCode.Trodden.step (hw : ∃ c k, C.worker.run = .call (.io c) k) {τ : Tid → ThreadTrace ω} (h : C.Trodden s τ)
    (hs : Trans (runtime C.client) s a s') (hio : Legal C s a) :
    ∃ τ', C.Trodden s' τ' ∧ Grown A W C s a s' τ τ' := by
  cases hs.move with
  | stay ha hl hm => exact ⟨τ, fun t => by rw [hl]; exact h t, .stay ha hl hm⟩
  | call t r hr ha hx hl hm =>
    obtain ⟨σ, hσ, hat⟩ := told_call (A := A) (W := W) (h t) hr ha hx fun e he => hio t r e (hx e he) he
    refine ⟨Function.update τ t (τ t ++ σ), fun u => ?_, .call t r σ hr ha hx hl hm (by rw [hm]; exact hσ)⟩
    rw [hl]
    by_cases hu : u = t
    · subst hu
      rw [Function.update_self, Function.update_self]
      exact hat
    · rw [Function.update_of_ne hu, Function.update_of_ne hu]
      exact h u
  | create t v ha hc hv hl hm =>
    obtain ⟨f, i, hlt, hcf, rfl⟩ := own_of_create hc
    have hat := h t
    rw [hlt] at hat
    have htr : C.Trod t (τ t) (.call f.call f.next) := by
      rcases hat with ⟨hst, -⟩ | ⟨htr, -⟩
      · simp [PFrame.own, hcf] at hst
      · exact htr
    obtain ⟨σ, hσ, hat'⟩ := told_back (A := A) (W := W) (s := s) (a := a) (r := .ok) (b := .own .ok) htr rfl
      (by rw [hcf]; exact .create hlt hcf ha (.inl rfl))
    have hnv : s.loc (.worker i) = .absent := loc_of_absent (D := C.client) hv
    rw [hlt] at hl hm
    refine ⟨Function.update τ t (τ t ++ σ), fun u => ?_,
      .create t i σ f ha hlt hcf hnv hl hm (by rw [hm]; exact hσ)⟩
    rw [hl]
    by_cases hu : u = t
    · subst hu
      rw [Function.update_self, Function.update_self]
      exact hat'
    · rw [Function.update_of_ne hu, Function.update_of_ne hu]
      by_cases huv : u = .worker i
      · subst huv
        have hnil := h (.worker i)
        rw [hnv] at hnil
        have hnil : τ (.worker i) = [] := hnil
        rw [Function.update_self, hnil]
        obtain ⟨c, k, hck⟩ := hw
        have hentry : (runtime C.client).entry (.worker i) = (PFrame.enter ⟨.io c, k⟩).enter := by
          simp [runtime, ProcessCode.client, ProcessCode.go, hck, runOn, Shared.exec]
        rw [hentry]
        refine at_enter (m := .empty) ?_ rfl
        show C.Trod _ [] (.call (.io c) k)
        rw [← hck]
        exact .start
      · rw [Function.update_of_ne huv]
        exact h u

end

end MrLib
