import MrLib.Process.Pool

/-!
# Every step of a process is one of its pool

`Pooled.step`. A step of a thread is a call that returns, with the code up to the next call. Inside `mr_queue_push`,
`mr_queue_pop` and `mr_queue_close` the pool makes the step that belongs to the call (`queue_ctl`, `queue_wk`); when a
call has come back to the thread function, the thread reads and records (`back_ctl`, `back_wk`).
-/

namespace MrLib

open Conc Conc.WorkPool

variable {ω Φ : Type} {C : ProcessCode ω Φ} {P : Spec} {job : Heap ω → ω → Sys} {K : Contract C P job}
  {s s' : PoolState ω Φ} {a : Act Tid Val} {g g' : State ω} {f : PFrame ω (Except Int Φ)}

/-! ## The queue and the stack -/

theorem QueueIs.count {q : Queue (Option ω)} {stack : List ω} {closed : Bool} (h : QueueIs P q stack closed) :
    q.count = stack.length := by
  rw [← Queue.length_elems, h.elems, List.length_map]

theorem QueueIs.put {q : Queue (Option ω)} {stack : List ω} {closed : Bool} (h : QueueIs P q stack closed) (x : ω)
    (hc : q.count ≠ q.capacity) : QueueIs P (q.put (cell x).1) (stack ++ [x]) closed where
  wf := h.wf.put (by rw [h.size]; rfl) (by have := h.wf.le; omega)
  size := h.size
  capacity := h.capacity
  elems := by
    rw [h.wf.elems_put (by rw [h.size]; rfl) (by have := h.wf.le; omega), h.elems]
    simp [cell]
  closed := h.closed

theorem QueueIs.close {q : Queue (Option ω)} {stack : List ω} {closed : Bool} (h : QueueIs P q stack closed) :
    QueueIs P { q with closed := true } stack true where
  wf := ⟨h.wf.length, h.wf.noWrap, h.wf.le⟩
  size := h.size
  capacity := h.capacity
  elems := h.elems
  closed := rfl

/-- What a pop takes is the top of the stack. -/
theorem QueueIs.take {q : Queue (Option ω)} {stack : List ω} {closed : Bool} (h : QueueIs P q stack closed)
    (hc : q.count ≠ 0) : ∃ l x, stack = l ++ [x] ∧ q.take.1 = [some x] ∧ QueueIs P q.take.2 l closed := by
  have ht := h.wf.elems_take hc
  rw [h.elems] at ht
  rcases List.eq_nil_or_concat stack with hs | ⟨l, x, hs⟩
  · rw [hs] at ht
    exact absurd ht (by simp)
  · rw [List.concat_eq_append] at hs
    rw [hs, List.map_append] at ht
    obtain ⟨h1, h2⟩ := List.append_inj' ht rfl
    simp only [List.map_cons, List.map_nil, List.cons.injEq, and_true] at h2
    exact ⟨l, x, hs, h2.symm, h.wf.take, h.size, h.capacity, h1.symm, h.closed⟩

/-! ## The controller -/

/-- The thread makes its next call, and the pool starts a push or a close with it. -/
theorem enter_ctl {m : Shared ω} {n : Next (Option ω) 1 (PFrame ω (Except Int Φ))}
    (h : Waiting (ctlEnv P) K.ctlPhase K.ctlExit (g.ctl, m.seen) m .controller n) (hg : Good P job m g)
    (ho : g.ctl.op = .none) :
    ∃ g', Smooth P g g' ∧ Good P job m g' ∧ K.AtCtl n.enter (g'.ctl, m.seen) ∧ g'.wk = g.wk ∧ g'.stack = g.stack ∧
      g'.closed = g.closed ∧ g'.ctl.created = g.ctl.created ∧ g'.ctl.joined = g.ctl.joined := by
  cases h with
  | done code h => exact ⟨g, .refl g, hg, ⟨ho, h⟩, rfl, rfl, rfl, rfl, rfl⟩
  | stuck x h => exact ⟨g, .refl g, hg, ⟨ho, .inl ⟨rfl, .ret x, h⟩⟩, rfl, rfl, rfl, rfl, rfl⟩
  | call f h he =>
    obtain ⟨r0, v0, h0⟩ := h.1
    obtain ⟨c, k⟩ := f
    cases c with
    | io c =>
      cases c with
      | log level format => exact ⟨g, .refl g, hg, ⟨ho, ⟨level, format, rfl⟩, h⟩, rfl, rfl, rfl, rfl, rfl⟩
      | writeN fd bs => exact ⟨g, .refl g, hg, ⟨ho, .inl ⟨rfl, _, h⟩⟩, rfl, rfl, rfl, rfl, rfl⟩
      | sys e => exact ⟨g, .refl g, hg, ⟨ho, .inr ⟨h, .inl ⟨e, rfl⟩⟩⟩, rfl, rfl, rfl, rfl, rfl⟩
    | push x =>
      obtain ⟨hs, hn, hk, rest, hh, -⟩ := h0
      have hstep := Step.push (P := P) x rest ho hs hn hk hh
      refine ⟨_, (Smooth.refl _).cons hstep, hg.quiet hstep rfl rfl rfl rfl, ⟨x, rfl, rfl, rfl, ?_⟩, rfl, rfl, rfl, rfl,
        rfl⟩
      have heq : ({ { g.ctl with op := .pushing x } with op := .none } : Ctl ω) = g.ctl := by rw [← ho]
      show K.ctl (({ { g.ctl with op := .pushing x } with op := .none } : Ctl ω), m.seen) ⟨.push x, k⟩
      rw [heq]
      exact h
    | close =>
      have hstep := Step.shut (P := P) ho
      exact ⟨_, (Smooth.refl _).cons hstep, hg.quiet hstep rfl rfl rfl rfl, ⟨ho, rfl, g.ctl, rfl, h⟩, rfl, rfl, rfl,
        rfl, rfl⟩
    | create i => exact ⟨g, .refl g, hg, ⟨ho, .inr ⟨h, .inr (.inl ⟨i, rfl⟩)⟩⟩, rfl, rfl, rfl, rfl, rfl⟩
    | join i => exact ⟨g, .refl g, hg, ⟨ho, .inr ⟨h, .inr (.inr ⟨i, rfl⟩)⟩⟩, rfl, rfl, rfl, rfl, rfl⟩
    | pop | emit => cases h0
    | share | load | note => cases he

/-- The controller has moved to `l`, and the pool with it. -/
structure CtlMoves (K : Contract C P job) (s : PoolState ω Φ) (a : Act Tid Val) (g : State ω)
    (n : TLoc (Option ω) 1 (PFrame ω (Except Int Φ)) × Mem (Option ω) (Shared ω)) (fs : List Fault) (g' : State ω) :
    Prop where
  steps : Steps P g fs g'
  blame : ∀ f ∈ fs, Blame s a f
  good : Good P job n.2.user g'
  loc : K.AtCtl n.1 (g'.ctl, n.2.user.seen)
  queue : QueueIs P n.2.queue g'.stack g'.closed
  wk : g'.wk = g.wk
  created : g'.ctl.created = g.ctl.created
  joined : ∀ i ∈ g'.ctl.joined, i ∈ g.ctl.joined ∨ ∃ c, s.loc (.worker i) = .done c
  heap : n.2.user.heap = s.mem.user.heap ∨ g.ctl.created = 0

/-- The pool has made at most one step. -/
inductive Once (P : Spec) (s : PoolState ω Φ) (a : Act Tid Val) (g : State ω) : State ω → Prop
  | none : Once P s a g g
  | step {g' : State ω} {f : Fault} (h : Step P g f g') (hb : Blame s a f) : Once P s a g g'

theorem Once.steps (h : Once P s a g g') : ∃ fs, Steps P g fs g' ∧ ∀ f ∈ fs, Blame s a f := by
  cases h with
  | none => exact ⟨[], .nil, fun _ h => by cases h⟩
  | @step g' f h hb => exact ⟨[f], .cons h .nil, fun f hf => by rw [List.mem_singleton.mp hf]; exact hb⟩

/-- **A call has come back to the controller.** -/
theorem back_ctl {v0 : Ctl ω × Seen ω} (hp : K.ctl v0 f) {b : Back (Option ω)} {x : Mem (Option ω) (Shared ω)}
    {g1 : State ω} (h1 : Once P s a g g1) (hg : Good P job x.user g1)
    (he : ctlEnv P v0 f.call (f.call.answer b) (g1.ctl, x.user.seen)) (ho : g1.ctl.op = .none)
    (hq : QueueIs P x.queue g1.stack g1.closed) (hwk : g1.wk = g.wk) (hcr : g1.ctl.created = g.ctl.created)
    (hx : x.user.heap = s.mem.user.heap)
    (hj : ∀ i ∈ g1.ctl.joined, i ∈ g.ctl.joined ∨ ∃ c, s.loc (.worker i) = .done c) :
    ∃ fs g', CtlMoves K s a g (C.client.resume .controller f b x) fs g' := by
  obtain ⟨v2, hn, hk2, hw⟩ := go_spec (t := .controller) (reads_ctl P) K.ctlBody (m := x.user) rfl (hp.2 _ _ he)
  obtain ⟨g2, hs2, hg2, hv2, ho2, hwk2, hst2, hcl2, hcr2, hj2, hh2⟩ := noted_ctl K.workers_pos hn hg rfl ho
  rw [hv2] at hw
  obtain ⟨g3, hs3, hg3, hl3, hwk3, hst3, hcl3, hcr3, hj3⟩ := enter_ctl hw hg2 ho2
  obtain ⟨fs1, hfs1, hb1⟩ := h1.steps
  obtain ⟨fs2, hfs2, hb2⟩ := hs2
  obtain ⟨fs3, hfs3, hb3⟩ := hs3
  refine ⟨_, g3, Steps.trans hfs1 (Steps.trans hfs2 hfs3), fun f hf => ?_, hg3, hl3, ?_, ?_, ?_, ?_, ?_⟩
  · simp only [List.mem_append] at hf
    rcases hf with hf | hf | hf
    · exact hb1 f hf
    · rw [hb2 f hf]
      trivial
    · rw [hb3 f hf]
      trivial
  · rw [hst3, hcl3, hst2, hcl2]
    exact hq
  · rw [hwk3, hwk2, hwk]
  · rw [hcr3, hcr2, hcr]
  · rw [hj3, hj2]
    exact hj
  · rcases hh2 with hh2 | hh2
    · exact .inl (hh2.trans hx)
    · rw [hcr] at hh2
      exact .inr hh2

/-- A call has not come back yet. -/
theorem inside_ctl {l : TLoc (Option ω) 1 (PFrame ω (Except Int Φ))} {x : Mem (Option ω) (Shared ω)} {g1 : State ω}
    (h1 : Once P s a g g1) (hg : Good P job x.user g1) (hl : K.AtCtl l (g1.ctl, x.user.seen))
    (hq : QueueIs P x.queue g1.stack g1.closed) (hwk : g1.wk = g.wk) (hcr : g1.ctl.created = g.ctl.created)
    (hx : x.user.heap = s.mem.user.heap) (hj : g1.ctl.joined = g.ctl.joined) :
    ∃ fs g', CtlMoves K s a g (l, x) fs g' := by
  obtain ⟨fs1, hfs1, hb1⟩ := h1.steps
  exact ⟨fs1, g1, hfs1, hb1, hg, hl, hq, hwk, hcr, fun i hi => .inl (hj ▸ hi), .inl hx⟩

/-- The test of `mr_queue_push`, with room for the element or without. -/
theorem pushTest_ctl (h : Pooled K s g) {x : ω} (hc : f.call = .push x) (ho : g.ctl.op = .pushing x)
    (hp : K.ctl ({ g.ctl with op := .none }, s.mem.user.seen) f) :
    ∃ fs g', CtlMoves K s a g (.queue (s.mem.queue.pushTest (cell x)).1 f,
      { s.mem with queue := (s.mem.queue.pushTest (cell x)).2 }) fs g' := by
  have hq := h.queue
  obtain ⟨-, -, -, rest, hh, -⟩ := (hc ▸ hp.1 : ∃ r v', ctlEnv P _ (.push x) r v').choose_spec.choose_spec
  by_cases hcount : s.mem.queue.count = s.mem.queue.capacity
  · simp only [Queue.pushTest, hcount, if_true]
    exact inside_ctl .none h.good ⟨x, rfl, hc, ho, hp⟩ hq rfl rfl rfl rfl
  · have hroom : g.stack.length < P.capacity := by
      have h1 := hq.count
      have h2 := hq.wf.le
      rw [← hq.capacity]
      omega
    have hstep := Step.put (P := P) x rest ho hh hroom
    simp only [Queue.pushTest, hcount, if_false]
    refine inside_ctl (.step hstep trivial) (h.good.quiet hstep rfl rfl rfl rfl) ⟨x, hc, rfl, ?_⟩
      (hq.put x hcount) rfl rfl rfl rfl
    have heq : ({ { g.ctl with op := .pushed x, held := rest } with op := .none, held := x :: rest } : Ctl ω) =
      { g.ctl with op := .none } := by rw [← hh]
    show K.ctl (({ { g.ctl with op := .pushed x, held := rest } with op := .none, held := x :: rest } : Ctl ω), _) f
    rw [heq]
    exact hp

/-- **A call in a queue operation of the controller.** -/
theorem queue_ctl (h : Pooled K s g) {q : QLoc (Option ω) 1} (hl : s.loc .controller = .queue q f) {r : Ret Val}
    (ha : a.returns .controller r) (hr : r = .ok ∨ r = .fail) :
    ∃ fs g', CtlMoves K s a g ((runtime C.client).next .controller (.queue q f) r s.mem) fs g' := by
  have hat := h.ctl
  have hfail : r = .fail → a = .ret .controller .fail := fun e => by
    rw [e] at ha
    exact ha.fail
  rw [hl] at hat
  have hq := h.queue
  have hg := h.good
  cases q with
  | pushLock y =>
    obtain ⟨x, rfl, hc, ho, hp⟩ := hat
    rcases hr with rfl | rfl
    · exact pushTest_ctl h hc ho hp
    · have hstep := Step.refuse (P := P) x ho
      obtain ⟨-, -, -, rest, hh, -⟩ := (hc ▸ hp.1 : ∃ r v', ctlEnv P _ (.push x) r v').choose_spec.choose_spec
      obtain ⟨h1, h2, hk, -⟩ := (hc ▸ hp.1 : ∃ r v', ctlEnv P _ (.push x) r v').choose_spec.choose_spec
      refine back_ctl (b := .queue ⟨-1, []⟩) hp (.step hstep ⟨hfail rfl, cell x, f, .inl hl⟩)
        (hg.quiet hstep rfl rfl rfl rfl) ?_ rfl hq rfl rfl rfl fun _ => .inl
      rw [hc]
      exact ⟨h1, h2, hk, rest, hh, .inr ⟨rfl, rfl⟩⟩
  | pushWait y =>
    obtain ⟨x, rfl, hc, ho, hp⟩ := hat
    rcases hr with rfl | rfl
    · exact pushTest_ctl h hc ho hp
    · have hstep := Step.refuse (P := P) x ho
      exact inside_ctl (.step hstep ⟨hfail rfl, cell x, f, .inr hl⟩) (hg.quiet hstep rfl rfl rfl rfl)
        ⟨rfl, x, _, hc, rfl, hp⟩ hq rfl rfl rfl rfl
  | pushSignal =>
    obtain ⟨x, hc, ho, hp⟩ := hat
    rcases hr with rfl | rfl
    · exact inside_ctl .none hg ⟨x, hc, ho, hp⟩ hq rfl rfl rfl rfl
    · have hstep := Step.burn (P := P) x ho
      exact inside_ctl (.step hstep ⟨hfail rfl, f, .inl hl⟩) (hg.quiet hstep rfl rfl rfl rfl)
        ⟨rfl, x, _, hc, rfl, hp⟩ hq rfl rfl rfl rfl
  | pushUnlock =>
    obtain ⟨x, hc, ho, hp⟩ := hat
    obtain ⟨h1, h2, hk, -⟩ := (hc ▸ hp.1 : ∃ r v', ctlEnv P _ (.push x) r v').choose_spec.choose_spec
    rcases hr with rfl | rfl
    · have hstep := Step.pushOk (P := P) x ho
      refine back_ctl (b := .queue ⟨0, []⟩) hp (.step hstep trivial) (hg.quiet hstep rfl rfl rfl rfl) ?_ rfl hq rfl rfl
        rfl fun _ => .inl
      rw [hc]
      exact ⟨h1, h2, hk, g.ctl.held, rfl, .inl ⟨rfl, rfl⟩⟩
    · have hstep := Step.burn (P := P) x ho
      refine back_ctl (b := .queue ⟨-1, []⟩) hp (.step hstep ⟨hfail rfl, f, .inr hl⟩)
        (hg.quiet hstep rfl rfl rfl rfl) ?_ rfl hq rfl rfl rfl fun _ => .inl
      rw [hc]
      exact ⟨h1, h2, hk, g.ctl.held, rfl, .inr ⟨rfl, rfl⟩⟩
  | pushFailed =>
    obtain ⟨ho, x, c, hc, hv, hp⟩ := hat
    obtain ⟨h1, h2, hk, rest, hh, -⟩ := (hc ▸ hp.1 : ∃ r v', ctlEnv P _ (.push x) r v').choose_spec.choose_spec
    refine back_ctl (b := .queue ⟨-1, []⟩) hp .none hg ?_ ho hq rfl rfl rfl fun _ => .inl
    rw [hc]
    exact ⟨h1, h2, hk, rest, hh, .inr ⟨rfl, Prod.ext hv rfl⟩⟩
  | closeLock =>
    obtain ⟨ho, hc, c, hv, hp⟩ := hat
    rcases hr with rfl | rfl
    · have hstep := Step.close (P := P) (g := g) (congrArg Ctl.shut hv)
      exact inside_ctl (.step hstep trivial) (hg.quiet hstep rfl rfl rfl rfl) ⟨ho, hc, c, hv, hp⟩
        hq.close rfl rfl rfl rfl
    · refine back_ctl (b := .queue ⟨-1, []⟩) hp .none hg ?_ ho hq rfl rfl rfl fun _ => .inl
      rw [hc]
      exact ⟨.inr rfl, Prod.ext hv rfl⟩
  | closeBroadcast =>
    obtain ⟨ho, hc, c, hv, hp⟩ := hat
    rcases hr with rfl | rfl
    · exact inside_ctl .none hg ⟨ho, hc, c, hv, hp⟩ hq rfl rfl rfl rfl
    · exact inside_ctl .none hg ⟨ho, hc, c, hv, hp⟩ hq rfl rfl rfl rfl
  | closeUnlock =>
    obtain ⟨ho, hc, c, hv, hp⟩ := hat
    rcases hr with rfl | rfl
    · refine back_ctl (b := .queue ⟨0, []⟩) hp .none hg ?_ ho hq rfl rfl rfl fun _ => .inl
      rw [hc]
      exact ⟨.inl rfl, Prod.ext hv rfl⟩
    · refine back_ctl (b := .queue ⟨-1, []⟩) hp .none hg ?_ ho hq rfl rfl rfl fun _ => .inl
      rw [hc]
      exact ⟨.inr rfl, Prod.ext hv rfl⟩
  | closeFailed =>
    obtain ⟨ho, hc, c, hv, hp⟩ := hat
    refine back_ctl (b := .queue ⟨-1, []⟩) hp .none hg ?_ ho hq rfl rfl rfl fun _ => .inl
    rw [hc]
    exact ⟨.inr rfl, Prod.ext hv rfl⟩
  | _ => exact hat.elim

/-- A thread that has ended. -/
theorem loc_of_done {D : Client Tid (Option ω) 1 (Shared ω) (PFrame ω (Except Int Φ))}
    {l : TLoc (Option ω) 1 (PFrame ω (Except Int Φ))} {k : Int} (h : (runtime D).call l = .done k) : l = .done k := by
  cases l with
  | done c =>
    cases h
    rfl
  | queue q f => cases q <;> cases h
  | emit m e f => cases e <;> cases h
  | own f =>
    have hc : (D.call f).call = .done k := h
    cases ho : D.call f <;> rw [ho] at hc <;> cases hc
  | _ => cases h

/-- **A call of the controller that creates no thread.** -/
theorem call_ctl (h : Pooled K s g) {r : Ret Val} (hr : (runtime C.client).Answers s .controller r)
    (ha : a.returns .controller r) (hio : ∀ e, (runtime C.client).call (s.loc .controller) = .ext e →
      e.mayReturn (fun _ => .other) r = true) :
    ∃ fs g', CtlMoves K s a g ((runtime C.client).next .controller (s.loc .controller) r s.mem) fs g' := by
  have hat := h.ctl
  have hg := h.good
  have hq := h.queue
  cases hl : s.loc .controller with
  | absent | emit => rw [hl] at hat; exact hat.elim
  | done code => simp [Code.Answers, hl, runtime, TLoc.call] at hr
  | queue q f =>
    refine queue_ctl h hl ha ?_
    rw [Code.Answers, hl] at hr
    cases q <;> exact hr
  | log l f =>
    rw [hl] at hat
    obtain ⟨ho, ⟨level, format, hc⟩, hp⟩ := hat
    simp only [runtime, TLoc.next]
    cases hn : l.next r with
    | inl l' => exact inside_ctl .none hg ⟨ho, ⟨level, format, hc⟩, hp⟩ hq rfl rfl rfl rfl
    | inr n =>
      refine back_ctl (b := .log n) hp .none hg ?_ ho hq rfl rfl rfl fun _ => .inl
      rw [hc]
      exact ⟨⟨.int n, trivial, rfl⟩, rfl⟩
  | own f =>
    rw [hl] at hat hio
    obtain ⟨ho, ⟨hst, -⟩ | ⟨hp, ⟨e, hc⟩ | ⟨i, hc⟩ | ⟨i, hc⟩⟩⟩ := hat
    · have := hio .stuck (by simp [runtime, TLoc.call, ProcessCode.client, hst, OwnCall.call])
      cases this
    · have hok := hio e (by simp [runtime, TLoc.call, ProcessCode.client, PFrame.own, hc, OwnCall.call])
      refine back_ctl (b := .own r) hp .none hg ?_ ho hq rfl rfl rfl fun _ => .inl
      rw [hc]
      exact ⟨⟨.sys r, .inr hok, rfl⟩, rfl⟩
    · -- `thrd_create` has failed
      have hr' : r = .fail := by
        simpa [Code.Answers, hl, runtime, TLoc.call, ProcessCode.client, PFrame.own, hc, OwnCall.call] using hr
      subst hr'
      have hstep := Step.createFail (P := P) (g := g)
      obtain ⟨h1, h2, h3, -⟩ := (hc ▸ hp.1 : ∃ r v', ctlEnv P _ (.create i) r v').choose_spec.choose_spec
      refine back_ctl (b := .own .fail) hp (.step hstep ⟨ha.fail, f, i, hl, hc⟩) (hg.quiet hstep rfl rfl rfl rfl) ?_ ho hq
        rfl rfl rfl fun _ => .inl
      rw [hc]
      exact ⟨h1, h2, h3, .inr ⟨rfl, rfl⟩⟩
    · simp only [Code.Answers, hl, runtime, TLoc.call, ProcessCode.client, PFrame.own, hc, OwnCall.call] at hr
      rcases hr with rfl | ⟨k, hdone, rfl⟩
      · have hstep := Step.joinFail (P := P) (g := g)
        refine back_ctl (b := .own .fail) hp (.step hstep ⟨ha.fail, f, i, hl, hc⟩) (hg.quiet hstep rfl rfl rfl rfl) ?_ ho
          hq rfl rfl rfl fun _ => .inl
        rw [hc]
        exact .inr ⟨rfl, rfl⟩
      · have hend : s.loc (.worker i) = .done k := loc_of_done (D := C.client) hdone
        have hout : (g.wk i).out = true := by
          have hwi := h.wk i
          rw [hend] at hwi
          exact hwi
        have hstep := Step.join (P := P) i hout
        refine back_ctl (b := .own (.code k)) hp (.step hstep trivial) (hg.quiet hstep rfl rfl rfl rfl) ?_ ho hq rfl rfl
          rfl fun j hj => ?_
        · rw [hc]
          exact .inl ⟨⟨k, rfl⟩, rfl⟩
        · rcases List.mem_cons.mp hj with rfl | hj
          · exact .inr ⟨k, hend⟩
          · exact .inl hj

/-! ## A worker -/

/-- The worker makes its next call. -/
theorem enter_wk {i : Nat} {m : Shared ω} {w : Wk ω} {n : Next (Option ω) 1 (PFrame ω (Except Int Φ))}
    (h : Waiting (wkEnv P job) K.wkPhase (fun _ v => v.1.out = true) (w, m.heap) m (.worker i) n) :
    K.AtWk n.enter (w, m.heap) := by
  cases h with
  | done code h => exact h
  | stuck => exact .inl rfl
  | call f h he =>
    obtain ⟨r0, v0, h0⟩ := h.1
    obtain ⟨c, k⟩ := f
    cases c with
    | io c =>
      cases c with
      | log level format => exact ⟨⟨level, format, rfl⟩, h⟩
      | writeN fd bs => cases h0
      | sys e => exact .inr ⟨h, e, rfl⟩
    | pop =>
      obtain ⟨hw, -⟩ := h0
      obtain rfl : w = .idle := hw
      exact ⟨rfl, h, rfl⟩
    | emit m => exact ⟨rfl, h⟩
    | push | close | create | join => cases h0
    | share | load | note => cases he

/-- Worker `i` has moved, and the pool with it. -/
structure WkMoves (K : Contract C P job) (s : PoolState ω Φ) (a : Act Tid Val) (g : State ω) (i : Nat)
    (n : TLoc (Option ω) 1 (PFrame ω (Except Int Φ)) × Mem (Option ω) (Shared ω)) (fs : List Fault) (g' : State ω) :
    Prop where
  steps : Steps P g fs g'
  blame : ∀ f ∈ fs, Blame s a f
  good : Good P job n.2.user g'
  loc : K.AtWk n.1 (g'.wk i, n.2.user.heap)
  queue : QueueIs P n.2.queue g'.stack g'.closed
  ctl : g'.ctl = g.ctl
  wk : ∀ j, j ≠ i → g'.wk j = g.wk j
  seen : n.2.user.seen = s.mem.user.seen

theorem WkMoves.heap {i : Nat} {n : TLoc (Option ω) 1 (PFrame ω (Except Int Φ)) × Mem (Option ω) (Shared ω)}
    {fs : List Fault} (h : WkMoves K s a g i n fs g') : n.2.user.heap = s.mem.user.heap := congrArg Seen.heap h.seen

/-- **A call has come back to a worker.** -/
theorem back_wk {i : Nat} {v0 : Wk ω × Heap ω} (hp : K.wk v0 f) {b : Back (Option ω)}
    {x : Mem (Option ω) (Shared ω)} {g1 : State ω} (h1 : Once P s a g g1) (hg : Good P job x.user g1)
    (he : wkEnv P job v0 f.call (f.call.answer b) (g1.wk i, x.user.heap))
    (hq : QueueIs P x.queue g1.stack g1.closed) (hctl : g1.ctl = g.ctl) (hwk : ∀ j, j ≠ i → g1.wk j = g.wk j)
    (hx : x.user.seen = s.mem.user.seen) :
    ∃ fs g', WkMoves K s a g i (C.client.resume (.worker i) f b x) fs g' := by
  obtain ⟨v2, hn, hk2, hw⟩ := go_spec (t := .worker i) (reads_wk P job _) K.wkBody (m := x.user) rfl (hp.2 _ _ he)
  obtain ⟨g2, ⟨fs2, hfs2, hb2⟩, hg2, hv2, hctl2, hwk2, hst2, hcl2, hh2⟩ := noted_wk hn hg rfl
  rw [hv2] at hw
  obtain ⟨fs1, hfs1, hb1⟩ := h1.steps
  refine ⟨_, g2, Steps.trans hfs1 hfs2, fun f hf => ?_, hg2, enter_wk hw, ?_, hctl2.trans hctl,
    fun j hj => (hwk2 j hj).trans (hwk j hj), hh2.trans hx⟩
  · rcases List.mem_append.mp hf with hf | hf
    · exact hb1 f hf
    · rw [hb2 f hf]
      trivial
  · rw [hst2, hcl2]
    exact hq

/-- A call has not come back yet. -/
theorem inside_wk {i : Nat} {l : TLoc (Option ω) 1 (PFrame ω (Except Int Φ))} {x : Mem (Option ω) (Shared ω)}
    {g1 : State ω} (h1 : Once P s a g g1) (hg : Good P job x.user g1) (hl : K.AtWk l (g1.wk i, x.user.heap))
    (hq : QueueIs P x.queue g1.stack g1.closed) (hctl : g1.ctl = g.ctl) (hwk : ∀ j, j ≠ i → g1.wk j = g.wk j)
    (hx : x.user.seen = s.mem.user.seen) : ∃ fs g', WkMoves K s a g i (l, x) fs g' := by
  obtain ⟨fs1, hfs1, hb1⟩ := h1.steps
  exact ⟨fs1, g1, hfs1, hb1, hg, hl, hq, hctl, hwk, hx⟩

/-- A step of worker `i` that the history does not record. -/
theorem Good.worker {m : Shared ω} (h : Good P job m g) {i : Nat} {w : Wk ω} {fl : Fault}
    (hs : Step P g fl (g.move i w)) : Good P job m (g.move i w) := h.quiet hs rfl rfl rfl rfl

/-- The test of `mr_queue_pop`: an element, or none, or none any more. -/
theorem popTest_wk (h : Pooled K s g) {i : Nat} (hc : f.call = .pop) (hp : K.wk (.idle, s.mem.user.heap) f)
    (hw : g.wk i = .idle) :
    ∃ fs g', WkMoves K s a g i (.queue (s.mem.queue.popTest : QLoc (Option ω) 1 × Queue (Option ω)).1 f,
      { s.mem with queue := (s.mem.queue.popTest : QLoc (Option ω) 1 × Queue (Option ω)).2 }) fs g' := by
  have hq := h.queue
  have hcount := hq.count
  unfold Queue.popTest
  by_cases h0 : s.mem.queue.count = 0
  · have hs0 : g.stack = [] := List.length_eq_zero_iff.mp (hcount.symm.trans h0)
    by_cases hcl : s.mem.queue.closed = true
    · have hstep := Step.find (P := P) i hw (hq.closed.symm.trans hcl) hs0
      simp only [h0, hcl, if_true]
      exact inside_wk (.step hstep trivial) (h.good.worker hstep) ⟨hc, hp, by rw [move_self]; rfl⟩ hq rfl
        (fun j hj => move_of_ne g _ hj) rfl
    · simp only [h0, hcl, if_true]
      exact inside_wk .none h.good ⟨hc, hp, hw⟩ hq rfl (fun _ _ => rfl) rfl
  · obtain ⟨l, x, hs, ht, hq'⟩ := hq.take h0
    have hstep := Step.take (P := P) i x l hw hs
    simp only [h0, if_false]
    exact inside_wk (.step hstep trivial) (h.good.quiet hstep rfl rfl rfl rfl)
      ⟨hc, hp, ⟨x, ht, move_self g i (.took x)⟩⟩ hq' rfl (fun j hj => move_of_ne g _ hj) rfl

/-- **A call of a worker in `mr_queue_pop`.** -/
theorem queue_wk (h : Pooled K s g) {i : Nat} {q : QLoc (Option ω) 1} (hl : s.loc (.worker i) = .queue q f) {r : Ret Val}
    (ha : a.returns (.worker i) r) (hr : r = .ok ∨ r = .fail) :
    ∃ fs g', WkMoves K s a g i ((runtime C.client).next (.worker i) (.queue q f) r s.mem) fs g' := by
  have hat := h.wk i
  have hfail : r = .fail → a = .ret (.worker i) .fail := fun e => by
    rw [e] at ha
    exact ha.fail
  rw [hl] at hat
  obtain ⟨hc, hp, hpop⟩ := hat
  have hq := h.queue
  have hg := h.good
  cases q with
  | popLock =>
    have hw : g.wk i = .idle := hpop
    rcases hr with rfl | rfl
    · exact popTest_wk h hc hp hw
    · have hstep := Step.crash (P := P) i hw
      refine back_wk (b := .queue ⟨-1, []⟩) hp (.step hstep ⟨i, .inl ⟨hfail rfl, f, .inl hl⟩⟩) (hg.worker hstep) ?_ hq rfl
        (fun j hj => move_of_ne g _ hj) rfl
      rw [hc, move_self]
      exact ⟨rfl, .inr (.inr ⟨rfl, rfl⟩)⟩
  | popWait =>
    have hw : g.wk i = .idle := hpop
    rcases hr with rfl | rfl
    · exact popTest_wk h hc hp hw
    · have hstep := Step.crash (P := P) i hw
      exact inside_wk (.step hstep ⟨i, .inl ⟨hfail rfl, f, .inr hl⟩⟩) (hg.worker hstep)
        ⟨hc, hp, move_self g i .broken⟩ hq rfl (fun j hj => move_of_ne g _ hj) rfl
  | popSignal y =>
    obtain ⟨x, rfl, hw⟩ := hpop
    rcases hr with rfl | rfl
    · exact inside_wk .none hg ⟨hc, hp, x, rfl, hw⟩ hq rfl (fun _ _ => rfl) rfl
    · have hstep := Step.lose (P := P) i x hw
      exact inside_wk (.step hstep ⟨i, hfail rfl, _, f, .inl hl⟩) (hg.quiet hstep rfl rfl rfl rfl)
        ⟨hc, hp, move_self g i .broken⟩ hq rfl (fun j hj => move_of_ne g _ hj) rfl
  | popUnlock y =>
    obtain ⟨x, rfl, hw⟩ := hpop
    rcases hr with rfl | rfl
    · have hstep := Step.got (P := P) i x hw
      refine back_wk (b := .queue ⟨0, [some x]⟩) hp (.step hstep trivial) (hg.worker hstep) ?_ hq rfl
        (fun j hj => move_of_ne g _ hj) rfl
      rw [hc, move_self]
      exact ⟨rfl, .inl ⟨x, rfl, rfl⟩⟩
    · have hstep := Step.lose (P := P) i x hw
      refine back_wk (i := i) (b := .queue ⟨-1, []⟩) hp (.step hstep ⟨i, hfail rfl, _, f, .inr hl⟩)
        (hg.quiet hstep rfl rfl rfl rfl) ?_ hq rfl (fun j hj => move_of_ne g _ hj) rfl
      rw [hc]
      exact ⟨rfl, .inr (.inr ⟨rfl, Prod.ext (move_self g i .broken) rfl⟩)⟩
  | popClosed =>
    have hstep := Step.drain (P := P) i hpop
    refine back_wk (b := .queue ⟨1, []⟩) hp (.step hstep trivial) (hg.worker hstep) ?_ hq rfl
      (fun j hj => move_of_ne g _ hj) rfl
    rw [hc, move_self]
    exact ⟨rfl, .inr (.inl ⟨rfl, rfl⟩)⟩
  | popFailed =>
    refine back_wk (i := i) (b := .queue ⟨-1, []⟩) hp .none hg ?_ hq rfl (fun _ _ => rfl) rfl
    rw [hc]
    exact ⟨rfl, .inr (.inr ⟨rfl, Prod.ext hpop rfl⟩)⟩
  | _ => exact hpop.elim

/-- **A call of a worker.** -/
theorem call_wk (h : Pooled K s g) {i : Nat} {r : Ret Val} (hr : (runtime C.client).Answers s (.worker i) r)
    (ha : a.returns (.worker i) r) (hx : (runtime C.client).Direct s a (.worker i) r)
    (hio : ∀ e, (runtime C.client).call (s.loc (.worker i)) = .ext e → e.mayReturn (fun _ => .other) r = true) :
    ∃ fs g', WkMoves K s a g i ((runtime C.client).next (.worker i) (s.loc (.worker i)) r s.mem) fs g' := by
  have hat := h.wk i
  have hg := h.good
  have hq := h.queue
  cases hl : s.loc (.worker i) with
  | absent => simp [Code.Answers, hl, runtime, TLoc.call] at hr
  | done code => simp [Code.Answers, hl, runtime, TLoc.call] at hr
  | queue q f =>
    refine queue_wk h hl ha ?_
    rw [Code.Answers, hl] at hr
    cases q <;> exact hr
  | log l f =>
    rw [hl] at hat
    obtain ⟨⟨level, format, hc⟩, hp⟩ := hat
    simp only [runtime, TLoc.next]
    cases hn : l.next r with
    | inl l' => exact inside_wk .none hg ⟨⟨level, format, hc⟩, hp⟩ hq rfl (fun _ _ => rfl) rfl
    | inr n =>
      by_cases hcr : g.wk i = .idle ∧ n = -1
      · obtain ⟨hw, rfl⟩ := hcr
        have hstep := Step.crash (P := P) i hw
        have hblame : Blame s a .crashed := ⟨i, .inr ⟨l, f, r, hl, hx (.log l.call) (by rw [hl]; rfl), hn⟩⟩
        refine back_wk (b := .log (-1)) hp (.step hstep hblame) (hg.worker hstep) ?_ hq rfl
          (fun j hj => move_of_ne g _ hj) rfl
        rw [hc, move_self]
        exact ⟨-1, rfl, by rw [hw]; rfl⟩
      · refine back_wk (b := .log n) hp .none hg ?_ hq rfl (fun _ _ => rfl) rfl
        rw [hc]
        refine ⟨n, rfl, Prod.ext ?_ rfl⟩
        cases hw : g.wk i with
        | idle =>
          have hn1 : n ≠ -1 := fun e => hcr ⟨hw, e⟩
          simp [stumble, hn1]
        | _ => rfl
  | emit m e f =>
    rw [hl] at hat
    obtain ⟨hc, hp⟩ := hat
    simp only [runtime, TLoc.next]
    rcases hn : e.next m s.mem.stdout r with ⟨e' | n, o⟩
    · exact inside_wk .none hg ⟨hc, hp⟩ hq rfl (fun _ _ => rfl) rfl
    · refine back_wk (x := { s.mem with stdout := o }) (b := .emit n) hp .none hg ?_ hq rfl (fun _ _ => rfl) rfl
      rw [hc]
      exact ⟨⟨n, rfl⟩, rfl⟩
  | own f =>
    rw [hl] at hat hio
    rcases hat with hst | ⟨hp, e, hc⟩
    · have := hio .stuck (by simp [runtime, TLoc.call, ProcessCode.client, hst, OwnCall.call])
      cases this
    · have hok := hio e (by simp [runtime, TLoc.call, ProcessCode.client, PFrame.own, hc, OwnCall.call])
      refine back_wk (b := .own r) hp .none hg ?_ hq rfl (fun _ _ => rfl) rfl
      rw [hc]
      refine ⟨r, .inr hok, rfl, Prod.ext ?_ rfl⟩
      cases e with
      | stuck => cases hok
      | _ => rfl

/-! ## The step lemma -/

/-- Calls of the system return something they may return. -/
def Legal (C : ProcessCode ω Φ) (s : PoolState ω Φ) (a : Act Tid Val) : Prop :=
  ∀ t r e, a = .ret t r → (runtime C.client).call (s.loc t) = .ext e → e.mayReturn (fun _ => .other) r = true

/-- The first call of a worker. -/
theorem entry_wk (K : Contract C P job) (i : Nat) (heap : Heap ω) :
    K.AtWk ((runtime C.client).entry (.worker i)) (.idle, heap) := by
  obtain ⟨c, k, hw, hp⟩ := K.worker
  have hentry : (runtime C.client).entry (.worker i) = (PFrame.enter ⟨.io c, k⟩).enter := by
    simp [runtime, ProcessCode.client, ProcessCode.go, hw, runOn, Shared.exec]
  rw [hentry]
  exact enter_wk (i := i) (m := ⟨heap, []⟩) (.call ⟨.io c, k⟩ (hp heap) rfl)

/-- The controller has moved. -/
theorem CtlMoves.pooled (h : Pooled K s g) {n : TLoc (Option ω) 1 (PFrame ω (Except Int Φ)) × Mem (Option ω) (Shared ω)}
    {fs : List Fault} (hm : CtlMoves K s a g n fs g') (hl : s'.loc = Function.update s.loc .controller n.1)
    (hx : s'.mem = n.2) : Pooled K s' g' where
  good := by rw [hx]; exact hm.good
  ctl := by
    rw [hl, hx, Function.update_self]
    exact hm.loc
  wk i := by
    rw [hl, hx, Function.update_of_ne (show Tid.worker i ≠ .controller from nofun), hm.wk]
    rcases hm.heap with hh | hc
    · rw [hh]
      exact h.wk i
    · have hi := h.wk i
      rw [h.absent i (by omega)] at hi ⊢
      exact hi
  absent i hi := by
    rw [hl, Function.update_of_ne (show Tid.worker i ≠ .controller from nofun)]
    exact h.absent i (by rw [← hm.created]; exact hi)
  joined i hi := by
    rw [hl, Function.update_of_ne (show Tid.worker i ≠ .controller from nofun)]
    exact (hm.joined i hi).elim (h.joined i) id
  queue := by rw [hx]; exact hm.queue

/-- A worker has moved. -/
theorem WkMoves.pooled (h : Pooled K s g) {i : Nat}
    {n : TLoc (Option ω) 1 (PFrame ω (Except Int Φ)) × Mem (Option ω) (Shared ω)} {fs : List Fault}
    (hm : WkMoves K s a g i n fs g') (hne : s.loc (.worker i) ≠ .absent) (hnd : ∀ c, s.loc (.worker i) ≠ .done c)
    (hl : s'.loc = Function.update s.loc (.worker i) n.1) (hx : s'.mem = n.2) : Pooled K s' g' where
  good := by rw [hx]; exact hm.good
  ctl := by
    rw [hl, hx, Function.update_of_ne (show Tid.controller ≠ .worker i from nofun), hm.ctl, hm.seen]
    exact h.ctl
  wk j := by
    by_cases hj : j = i
    · subst hj
      rw [hl, hx, Function.update_self]
      exact hm.loc
    · rw [hl, hx, Function.update_of_ne (fun e => hj (Tid.worker.inj e)), hm.wk j hj, hm.heap]
      exact h.wk j
  absent j hj := by
    rw [hm.ctl] at hj
    have hji : j ≠ i := by
      rintro rfl
      exact hne (h.absent j hj)
    rw [hl, Function.update_of_ne fun e => hji (Tid.worker.inj e)]
    exact h.absent j hj
  joined j hj := by
    rw [hm.ctl] at hj
    obtain ⟨c, hc⟩ := h.joined j hj
    have hji : j ≠ i := by
      rintro rfl
      exact hnd c hc
    rw [hl, Function.update_of_ne fun e => hji (Tid.worker.inj e)]
    exact ⟨c, hc⟩
  queue := by rw [hx]; exact hm.queue

/-- Only the controller creates threads, one after the other. -/
theorem Pooled.creates (h : Pooled K s g) {t u : Tid} (hc : (runtime C.client).call (s.loc t) = .thrdCreate u) :
    ∃ f, t = .controller ∧ u = .worker g.ctl.created ∧ s.loc .controller = .own f ∧ f.call = .create g.ctl.created ∧
      g.ctl.op = .none ∧ K.ctl (g.ctl, s.mem.user.seen) f := by
  obtain ⟨f, hl, hf⟩ : ∃ f, s.loc t = .own f ∧ f.own = .thrdCreate u := by
    cases hl : s.loc t with
    | own f =>
      rw [hl] at hc
      have hc : (PFrame.own f).call = Call.thrdCreate u := hc
      refine ⟨f, rfl, ?_⟩
      cases ho : PFrame.own f <;> rw [ho] at hc <;> cases hc
      rfl
    | queue q f =>
      rw [hl] at hc
      cases q <;> cases hc
    | emit m e f =>
      rw [hl] at hc
      cases e <;> cases hc
    | _ =>
      rw [hl] at hc
      cases hc
  cases t with
  | controller =>
    have hat := h.ctl
    rw [hl] at hat
    obtain ⟨ho, ⟨hst, -⟩ | ⟨hp, ⟨e, he⟩ | ⟨i, he⟩ | ⟨i, he⟩⟩⟩ := hat
    · rw [hst] at hf
      cases hf
    · simp [PFrame.own, he] at hf
    · simp only [PFrame.own, he, OwnCall.thrdCreate.injEq] at hf
      obtain ⟨rfl, -⟩ := (he ▸ hp.1 : ∃ r v', ctlEnv P _ (.create i) r v').choose_spec.choose_spec
      exact ⟨f, rfl, hf.symm, hl, he, ho, hp⟩
    · simp [PFrame.own, he] at hf
  | worker j =>
    have hat := h.wk j
    rw [hl] at hat
    rcases hat with hst | ⟨-, e, he⟩
    · rw [hst] at hf
      cases hf
    · simp [PFrame.own, he] at hf

/-- A worker is created. -/
theorem Pooled.create (h : Pooled K s g) {f : PFrame ω (Except Int Φ)} (hc : f.call = .create g.ctl.created)
    (ho : g.ctl.op = .none) (hp : K.ctl (g.ctl, s.mem.user.seen) f)
    (hl : s'.loc = Function.update (Function.update s.loc (.worker g.ctl.created)
      ((runtime C.client).entry (.worker g.ctl.created))) .controller
      (C.client.resume .controller f (.own .ok) s.mem).1)
    (hx : s'.mem = (C.client.resume .controller f (.own .ok) s.mem).2) :
    ∃ fs g', Steps P g fs g' ∧ (∀ f ∈ fs, Blame s a f) ∧ Pooled K s' g' := by
  obtain ⟨-, hlt, hsh, -⟩ := (hc ▸ hp.1 : ∃ r v', ctlEnv P _ (.create g.ctl.created) r v').choose_spec.choose_spec
  have hstep := Step.create (P := P) ho hsh hlt
  have hg1 := h.good.quiet hstep rfl rfl rfl rfl
  obtain ⟨fs, g', hm⟩ := back_ctl (s := s) (a := a) (b := .own .ok) hp .none hg1
    (by rw [hc]; exact ⟨rfl, hlt, hsh, .inl ⟨rfl, rfl⟩⟩) ho h.queue rfl rfl rfl fun _ => .inl
  have hheap : s'.mem.user.heap = s.mem.user.heap := by
    rw [hx]
    exact hm.heap.resolve_right (Nat.succ_ne_zero _)
  refine ⟨_, g', .cons hstep hm.steps, fun fl hf => ?_, by rw [hx]; exact hm.good, ?_, fun i => ?_, fun i hi => ?_,
    fun i hi => ?_, by rw [hx]; exact hm.queue⟩
  · rcases List.mem_cons.mp hf with rfl | hf
    · trivial
    · exact hm.blame fl hf
  · rw [hl, Function.update_self, hx]
    exact hm.loc
  · rw [hl, Function.update_of_ne (show Tid.worker i ≠ .controller from nofun), hm.wk, hheap]
    by_cases hi : i = g.ctl.created
    · subst hi
      rw [Function.update_self]
      have hw := move_self g g.ctl.created .idle
      show K.AtWk _ ((g.move g.ctl.created .idle).wk g.ctl.created, _)
      rw [hw]
      exact entry_wk K _ _
    · rw [Function.update_of_ne fun e => hi (Tid.worker.inj e)]
      show K.AtWk _ ((g.move g.ctl.created .idle).wk i, _)
      rw [move_of_ne g .idle hi]
      exact h.wk i
  · have hi : g.ctl.created + 1 ≤ i := by
      have := hm.created
      rw [this] at hi
      exact hi
    rw [hl, Function.update_of_ne (show Tid.worker i ≠ .controller from nofun),
      Function.update_of_ne fun e => by have := Tid.worker.inj e; omega]
    exact h.absent i (by omega)
  · obtain ⟨c, hd⟩ := (hm.joined i hi).elim (h.joined i) id
    have hne : i ≠ g.ctl.created := by
      rintro rfl
      rw [h.absent _ (Nat.le_refl _)] at hd
      cases hd
    rw [hl, Function.update_of_ne (show Tid.worker i ≠ .controller from nofun),
      Function.update_of_ne fun e => hne (Tid.worker.inj e)]
    exact ⟨c, hd⟩

/-- **A process runs as its pool does.** -/
theorem Pooled.step (h : Pooled K s g) (hs : Trans (runtime C.client) s a s') (hio : Legal C s a) :
    ∃ fs g', Steps P g fs g' ∧ (∀ f ∈ fs, Blame s a f) ∧ Pooled K s' g' := by
  cases hs.move with
  | stay ha hl hm =>
    exact ⟨[], g, .nil, fun _ h => (by cases h), by rw [hm]; exact h.good, by rw [hl, hm]; exact h.ctl,
      fun i => by rw [hl, hm]; exact h.wk i, fun i hi => by rw [hl]; exact h.absent i hi,
      fun i hi => by rw [hl]; exact h.joined i hi, by rw [hm]; exact h.queue⟩
  | call t r hr ha hx hl hm =>
    have hio' : ∀ e, (runtime C.client).call (s.loc t) = .ext e → e.mayReturn (fun _ => .other) r = true :=
      fun e he => hio t r e (hx e he) he
    cases t with
    | controller =>
      obtain ⟨fs, g', hmv⟩ := call_ctl h hr ha hio'
      exact ⟨fs, g', hmv.steps, hmv.blame, hmv.pooled h hl hm⟩
    | worker i =>
      obtain ⟨fs, g', hmv⟩ := call_wk h hr ha hx hio'
      refine ⟨fs, g', hmv.steps, hmv.blame, hmv.pooled h (fun e => ?_) (fun c e => ?_) hl hm⟩
      · rw [Code.Answers, e] at hr
        exact hr
      · rw [Code.Answers, e] at hr
        exact hr
  | create t u ha hc hu hl hm =>
    obtain ⟨f, rfl, rfl, hlf, hcf, ho, hp⟩ := h.creates hc
    rw [hlf] at hl hm
    exact h.create hcf ho hp hl hm

/-! ## Runs of a process -/

theorem mayReturn_of_serve {stdin stdin' : Bytes} {e : Sys} {r : Ret Val} (h : serve stdin e r = some stdin') :
    e.mayReturn (fun _ => .other) r = true := by
  unfold serve at h
  split at h
  · split at h
    · rename_i hc
      simpa [Sys.mayReturn] using hc.2.1
    · cases h
  · split at h
    · assumption
    · cases h

/-- What a step of the process is. -/
theorem ProcessCode.step_spec {room : Nat} {s s' : Hosted ω Φ} (h : C.step room s a = some s') :
    Trans (runtime C.client) s.threads a s'.threads ∧ Legal C s.threads a := by
  unfold ProcessCode.step at h
  split at h
  · rename_i stdin t hserve hstep
    split at h
    · cases h
      refine ⟨Code.trans_of_step hstep, ?_⟩
      rintro u r e rfl hcall
      simp only [ProcessCode.serves, hcall] at hserve
      exact mayReturn_of_serve hserve
    · cases h
  · cases h

/-- The pool of a process. -/
def PoolArgs.spec (args : PoolArgs) (stops : Bool) : Spec := ⟨args.threads, args.queueSize, stops⟩

variable {args : PoolArgs} {stops : Bool}

theorem queueIs_init (args : PoolArgs) (stops : Bool) :
    QueueIs (args.spec stops) (mrQueueInit (List.replicate args.queueSize (none : Option ω)) args.queueSize 1) [] false
    where
  wf := Queue.mrQueueInit_wf (by have := args.queueSize_lt; omega) (by
    have := args.queueSize_lt
    simp [allocSize, Nat.mod_eq_of_lt this])
  size := rfl
  capacity := rfl
  elems := rfl
  closed := rfl

/-- The process starts as its pool does. -/
theorem pooled_init (K : Contract C (args.spec stops) job) (stdin : Bytes) :
    ∃ g, Smooth (args.spec stops) State.start g ∧ Pooled K (C.init args.queueSize stdin).threads g := by
  have hstart : Good (args.spec stops) job (Shared.empty : Shared ω) State.start := {
    inv := .start _
    ledger := .start _
    faults := .start _
    synced := ⟨rfl, rfl, rfl, rfl, nofun, nofun, fun _ _ => .nil⟩ }
  obtain ⟨v2, hn, hk2, hw⟩ := go_spec (t := .controller) (reads_ctl _) K.ctlBody (m := Shared.empty) rfl K.main
  obtain ⟨g2, hs2, hg2, hv2, ho2, hwk2, hst2, hcl2, hcr2, hj2, -⟩ := noted_ctl K.workers_pos hn hstart rfl rfl
  rw [hv2] at hw
  obtain ⟨g3, hs3, hg3, hl3, hwk3, hst3, hcl3, hcr3, hj3⟩ := enter_ctl hw hg2 ho2
  refine ⟨g3, hs2.trans hs3, hg3, hl3, fun i => ?_, fun i _ => rfl, fun i hi => ?_, ?_⟩
  · rw [hwk3, hwk2]
    rfl
  · rw [hj3, hj2] at hi
    cases hi
  · rw [hst3, hcl3, hst2, hcl2]
    exact queueIs_init args stops

/-- **A run of a process is a run of its pool**, in which only those faults occur that the steps can be blamed for. -/
theorem pooled_of_reach (K : Contract C (args.spec stops) job) {size : Nat} {stdin : Bytes} {s : Hosted ω Φ}
    {Cond : Hosted ω Φ → Act Tid Val → Prop} {F : Fault → Prop} (h0 : F .none)
    (hC : ∀ s a f, Cond s a → Blame s.threads a f → F f) (h : Reach (C.system args size stdin) Cond s) :
    ∃ fs g, Steps (args.spec stops) State.start fs g ∧ (∀ f ∈ fs, F f) ∧ Pooled K s.threads g := by
  induction h with
  | init =>
    obtain ⟨g, ⟨fs, hs, hf⟩, hp⟩ := pooled_init K stdin
    exact ⟨fs, g, hs, fun f hm => by rw [hf f hm]; exact h0, hp⟩
  | @step s s' a hr hc he ih =>
    obtain ⟨fs, g, hs, hf, hp⟩ := ih
    obtain ⟨htr, hleg⟩ := ProcessCode.step_spec he
    obtain ⟨fs', g', hs', hb, hp'⟩ := hp.step htr hleg
    refine ⟨fs ++ fs', g', Steps.trans hs hs', fun f hm => ?_, hp'⟩
    rcases List.mem_append.mp hm with hm | hm
    · exact hf f hm
    · exact hC s a f hc (hb f hm)

end MrLib
