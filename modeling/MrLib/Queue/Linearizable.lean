import Mathlib.Data.Fintype.Basic
import MrLib.Queue.System

/-!
# The queue refines an atomic bounded stack

The abstract system is `BoundedStack.system`: each call of `mr_queue_push`, `mr_queue_pop` and `mr_queue_close` takes
effect in one atomic step. The effect of a push or a pop is the step that leaves its waiting loop, the effect of a
close is its lock. `At` relates the location of a thread to the phase of its call, `Stacked` the whole states;
`stack_simulation` is the forward simulation, and `queue_refines_stack` reads off it what a client of the queue sees.
-/

namespace MrLib

open Conc
open Conc.BoundedStack (Op Res Phase Quiet)

variable {T : Type} {cap es : Nat} {block : List UInt8}

/-- What the operation returns when it has had this effect. -/
def resRet : Res Bytes → QRet UInt8
  | .pushed => ⟨0, []⟩
  | .popped x => ⟨0, x⟩
  | .drained => ⟨1, []⟩
  | .closed => ⟨0, []⟩

def eventRet : BoundedStack.Event T Bytes → QEvent T
  | .call t o => .call t o
  | .ret t o r => .ret t o (resRet r)

/-- The place of a thread in the code and the phase of its call. -/
inductive At : TLoc UInt8 es (Option (Op Bytes)) → Phase Bytes → Prop
  | idle : At (.own none) .idle
  | push (x : Elem UInt8 es) {l : QLoc UInt8 es} (hl : l = .pushLock x ∨ l = .pushWait x) :
      At (.queue l (some (.push x.1))) (.pending (.push x.1))
  | pushed (d : Bytes) {l : QLoc UInt8 es} (hl : l = .pushSignal ∨ l = .pushUnlock) :
      At (.queue l (some (.push d))) (.done (.push d) .pushed)
  | pop {l : QLoc UInt8 es} (hl : l = .popLock ∨ l = .popWait) : At (.queue l (some .pop)) (.pending .pop)
  | popped (x : Bytes) {l : QLoc UInt8 es} (hl : l = .popSignal x ∨ l = .popUnlock x) :
      At (.queue l (some .pop)) (.done .pop (.popped x))
  | drained : At (.queue .popClosed (some .pop)) (.done .pop .drained)
  | close : At (.queue .closeLock (some .close)) (.pending .close)
  | closed {l : QLoc UInt8 es} (hl : l = .closeBroadcast ∨ l = .closeUnlock) :
      At (.queue l (some .close)) (.done .close .closed)

/-- The stack of the abstract system is the contents of the buffer, and the histories agree. -/
structure Stacked (s : QState T es) (u : BoundedStack.St T Bytes) : Prop where
  at_ : ∀ t, At (s.loc t) (u.phase t)
  elems : u.stack.map Prod.snd = s.mem.queue.elems
  closed : u.closed = s.mem.queue.closed
  history : s.mem.user = u.history.map eventRet

/-- A push is under way. -/
def inPush (l : TLoc UInt8 es (Option (Op Bytes))) : Bool :=
  match l with
  | .queue _ (some (.push _)) => true
  | _ => false

def closes : Conc.Act T Val → Bool
  | .ret _ (.val (.op .close)) => true
  | _ => false

def pushes : Conc.Act T Val → Bool
  | .ret _ (.val (.op (.push _))) => true
  | _ => false

/-- No call fails; a close starts when every push has returned, and no push starts after it. -/
def closeLast (s : QState T es) (a : Conc.Act T Val) : Prop :=
  a.ok = true ∧ (closes a = true → ∀ u, inPush (s.loc u) = false) ∧
    (pushes a = true → ∀ u, QEvent.call u .close ∉ s.mem.user)

instance [Fintype T] [DecidableEq T] (s : QState T es) (a : Conc.Act T Val) : Decidable (closeLast s a) := by
  unfold closeLast
  infer_instance

theorem At.pushing {l : TLoc UInt8 es (Option (Op Bytes))} {p : Phase Bytes} (h : At l p) : p.pushing = inPush l := by
  cases h <;> rfl

theorem Stacked.called {s : QState T es} {u : BoundedStack.St T Bytes} (h : Stacked s u) (t : T) :
    BoundedStack.Event.call t .close ∈ u.history ↔ QEvent.call t .close ∈ s.mem.user := by
  rw [h.history, List.mem_map]
  constructor
  · exact fun he => ⟨_, he, rfl⟩
  · rintro ⟨e, he, heq⟩
    cases e with
    | call t' o =>
      cases heq
      exact he
    | ret t' o r => cases heq

theorem At.no_create {l : TLoc UInt8 es (Option (Op Bytes))} {p : Phase Bytes} (h : At l p) {v : T} :
    (runtime (queueUser T es)).call l ≠ .thrdCreate v := by
  cases h with
  | push x hl | pushed d hl | pop hl | popped x hl | closed hl => rcases hl with rfl | rfl <;> nofun
  | idle | drained | close => nofun

/-! ## The simulation -/

theorem Stacked.count (h : Stacked s u) : u.stack.length = s.mem.queue.count := by
  have := congrArg List.length h.elems
  simpa using this

variable [DecidableEq T]

section

variable {s s' : QState T es} {u u' : BoundedStack.St T Bytes} {t : T} {a : Conc.Act T Val}

/-- One thread and its phase move, and the queue follows the stack. -/
theorem Stacked.move (h : Stacked s u) {l : TLoc UInt8 es (Option (Op Bytes))} {p : Phase Bytes}
    (hl : s'.loc = Function.update s.loc t l) (hp : u'.phase = Function.update u.phase t p) (hat : At l p)
    (he : u'.stack.map Prod.snd = s'.mem.queue.elems) (hc : u'.closed = s'.mem.queue.closed)
    (hh : s'.mem.user = u'.history.map eventRet) : Stacked s' u' where
  at_ v := by
    rw [hl, hp]
    by_cases hv : v = t
    · subst hv
      simpa using hat
    · simpa [hv] using h.at_ v
  elems := he
  closed := hc
  history := hh

/-- One thread moves within its phase, and nothing else changes. -/
theorem Stacked.stutter (h : Stacked s u) {l : TLoc UInt8 es (Option (Op Bytes))}
    (hl : s'.loc = Function.update s.loc t l) (hat : At l (u.phase t)) (hm : s'.mem = s.mem) : Stacked s' u :=
  h.move hl (Function.update_eq_self t u.phase).symm hat (by rw [hm]; exact h.elems) (by rw [hm]; exact h.closed)
    (by rw [hm]; exact h.history)

/-- The step that ends the waiting loop of a push. -/
theorem Stacked.push (h : Stacked s u) (hw : s.mem.queue.WF) (hes : s.mem.queue.elementSize = es)
    {x : Elem UInt8 es} (hp : u.phase t = .pending (.push x.1))
    (hl : s'.loc = Function.update s.loc t (.queue (s.mem.queue.pushTest x).1 (some (.push x.1))))
    (hm : s'.mem = { s.mem with queue := (s.mem.queue.pushTest x).2 }) :
    Stacked s' u ∨ ∃ b u', Quiet u b ∧ BoundedStack.step s.mem.queue.capacity u b = some u' ∧ Stacked s' u' := by
  by_cases hc : s.mem.queue.count = s.mem.queue.capacity
  · left
    simp only [Queue.pushTest, hc, if_true] at hl hm
    exact h.stutter hl (by rw [hp]; exact .push x (.inr rfl)) hm
  · right
    simp only [Queue.pushTest, hc, if_false] at hl hm
    have hlt : s.mem.queue.count < s.mem.queue.capacity := lt_of_le_of_ne hw.le hc
    refine ⟨.effect t, _, trivial, (BoundedStack.Step.push t x.1 hp (by rw [h.count]; exact hlt)).run, ?_⟩
    refine h.move hl rfl (.pushed x.1 (.inl rfl)) ?_ ?_ ?_
    · rw [hm]
      simp [hw.elems_put (x.2.trans hes.symm) hlt, h.elems]
    · rw [hm]
      exact h.closed
    · rw [hm]
      exact h.history

/-- The step that ends the waiting loop of a pop. -/
theorem Stacked.pop (h : Stacked s u) (hw : s.mem.queue.WF) (hp : u.phase t = .pending .pop)
    (hl : s'.loc = Function.update s.loc t (.queue s.mem.queue.popTest.1 (some .pop)))
    (hm : s'.mem = { s.mem with queue := (s.mem.queue.popTest : QLoc UInt8 es × Queue UInt8).2 }) :
    Stacked s' u ∨ ∃ b u', Quiet u b ∧ BoundedStack.step s.mem.queue.capacity u b = some u' ∧ Stacked s' u' := by
  by_cases hc : s.mem.queue.count = 0
  · cases ho : s.mem.queue.closed with
    | false =>
      left
      simp only [Queue.popTest, hc, ho, if_true, if_false, Bool.false_eq_true] at hl hm
      exact h.stutter hl (by rw [hp]; exact .pop (.inr rfl)) hm
    | true =>
      right
      simp only [Queue.popTest, hc, ho, if_true] at hl hm
      have hs : u.stack = [] := List.eq_nil_of_length_eq_zero (h.count.trans hc)
      refine ⟨.effect t, _, trivial, (BoundedStack.Step.drained t hp hs (h.closed.trans ho)).run, ?_⟩
      refine h.move hl rfl .drained ?_ ?_ ?_
      · rw [hm]
        exact h.elems
      · rw [hm]
        exact h.closed
      · rw [hm]
        exact h.history
  · right
    simp only [Queue.popTest, hc, if_false] at hl hm
    have htake := hw.elems_take hc
    rcases List.eq_nil_or_concat u.stack with hs | ⟨us, x, hs⟩
    · have := h.count
      rw [hs] at this
      exact absurd this.symm hc
    · rw [List.concat_eq_append] at hs
      have he := h.elems
      rw [hs, htake, List.map_append, List.map_singleton] at he
      obtain ⟨h1, h2⟩ := List.append_inj' he rfl
      refine ⟨.effect t, _, trivial, (BoundedStack.Step.pop t x us hp hs).run, ?_⟩
      refine h.move hl rfl ?_ ?_ ?_ ?_
      · rw [← List.singleton_inj.mp h2]
        exact .popped _ (.inl rfl)
      · rw [hm]
        exact h1
      · rw [hm]
        exact h.closed
      · rw [hm]
        exact h.history

/-- A thread between calls chooses its next operation. -/
theorem Stacked.choose (h : Stacked s u) (hP : closeLast s a) {r : Ret Val} (ha : a.returns t r)
    (hp : u.phase t = .idle) {n : TLoc UInt8 es (Option (Op Bytes))}
    {m : Mem UInt8 (List (QEvent T))} (hn : (runtime (queueUser T es)).next t (.own none) r s.mem = (n, m))
    (hl : s'.loc = Function.update s.loc t n) (hm : s'.mem = m) :
    Stacked s' u ∨ ∃ b u', Quiet u b ∧ BoundedStack.step cap u b = some u' ∧ Stacked s' u' := by
  have hcall : ∀ (o : Op Bytes) (l : QLoc UInt8 es), a = .ret t (.val (.op o)) →
      m = { s.mem with user := s.mem.user ++ [.call t o] } → n = .queue l (some o) →
      At (.queue l (some o)) (.pending o) →
      Stacked s' u ∨ ∃ b u', Quiet u b ∧ BoundedStack.step cap u b = some u' ∧ Stacked s' u' := by
    rintro o l ha rfl rfl hat
    right
    refine ⟨.call t o, _, ?_, (BoundedStack.Step.call t o hp).run, ?_⟩
    · cases o with
      | push d =>
        intro v hv
        exact hP.2.2 (by rw [ha]; rfl) v ((h.called v).mp hv)
      | pop => trivial
      | close =>
        intro v
        rw [(h.at_ v).pushing]
        exact hP.2.1 (by rw [ha]; rfl) v
    · refine h.move hl rfl hat ?_ ?_ ?_
      · rw [hm]
        exact h.elems
      · rw [hm]
        exact h.closed
      · rw [hm]
        simp [h.history, eventRet]
  have hskip : n = .own none → m = s.mem → Stacked s' u := by
    rintro rfl rfl
    exact h.stutter hl (by rw [hp]; exact .idle) hm
  cases r with
  | val v =>
    cases v with
    | op o =>
      cases o with
      | push d =>
        by_cases hd : d.length = es
        · simp only [runtime, TLoc.next, Client.resume, queueUser, hd, dite_true, Next.enter, Prod.mk.injEq] at hn
          exact hcall (.push d) _ ha.val hn.2.symm hn.1.symm (.push ⟨d, hd⟩ (.inl rfl))
        · simp only [runtime, TLoc.next, Client.resume, queueUser, hd, dite_false, Next.enter, Prod.mk.injEq] at hn
          exact .inl (hskip hn.1.symm hn.2.symm)
      | pop =>
        simp only [runtime, TLoc.next, Client.resume, queueUser, Next.enter, Prod.mk.injEq] at hn
        exact hcall .pop _ ha.val hn.2.symm hn.1.symm (.pop (.inl rfl))
      | close =>
        simp only [runtime, TLoc.next, Client.resume, queueUser, Next.enter, Prod.mk.injEq] at hn
        exact hcall .close _ ha.val hn.2.symm hn.1.symm .close
    | _ =>
      simp only [runtime, TLoc.next, Client.resume, queueUser, Next.enter, Prod.mk.injEq] at hn
      exact .inl (hskip hn.1.symm hn.2.symm)
  | _ =>
    simp only [runtime, TLoc.next, Client.resume, queueUser, Next.enter, Prod.mk.injEq] at hn
    exact .inl (hskip hn.1.symm hn.2.symm)

/-- An operation that has had its effect returns. -/
theorem Stacked.ret (h : Stacked s u) {o : Op Bytes} {r : Res Bytes} (hp : u.phase t = .done o r)
    (hl : s'.loc = Function.update s.loc t (.own none))
    (hm : s'.mem = { s.mem with user := s.mem.user ++ [.ret t o (resRet r)] }) :
    Stacked s' u ∨ ∃ b u', Quiet u b ∧ BoundedStack.step cap u b = some u' ∧ Stacked s' u' := by
  right
  refine ⟨.ret t, _, trivial, (BoundedStack.Step.ret t o r hp).run, h.move hl rfl .idle ?_ ?_ ?_⟩
  · rw [hm]
    exact h.elems
  · rw [hm]
    exact h.closed
  · rw [hm]
    simp [h.history, eventRet]

/-- **Every step of the threads is a step of the stack, or none.** -/
theorem Stacked.step (h : Stacked s u) (hw : s.mem.queue.WF) (hes : s.mem.queue.elementSize = es)
    (hP : closeLast s a) (hs : Move (runtime (queueUser T es)) s a s') :
    Stacked s' u ∨ ∃ b u', Quiet u b ∧ BoundedStack.step s.mem.queue.capacity u b = some u' ∧ Stacked s' u' := by
  cases hs with
  | stay _ hl hm =>
    left
    exact ⟨by rw [hl]; exact h.at_, by rw [hm]; exact h.elems, by rw [hm]; exact h.closed, by rw [hm]; exact h.history⟩
  | create t v _ hc hv hl hm => exact absurd hc (h.at_ t).no_create
  | call t r hr ha _ hl hm =>
    have hat := h.at_ t
    have hok : r ≠ .fail := ha.ne_fail hP.1
    generalize hlt : s.loc t = l at hat
    generalize hpt : u.phase t = p at hat
    simp only [Code.Answers] at hr
    rw [hlt] at hl hm hr
    cases hat with
    | idle => exact h.choose hP ha hpt rfl hl hm
    | push x hx =>
      rcases hx with rfl | rfl <;> obtain rfl := hr.resolve_right hok <;> exact h.push hw hes hpt hl hm
    | pushed d hx =>
      rcases hx with rfl | rfl <;> obtain rfl := hr.resolve_right hok
      · exact .inl (h.stutter hl (by rw [hpt]; exact .pushed d (.inr rfl)) hm)
      · exact h.ret hpt hl hm
    | pop hx => rcases hx with rfl | rfl <;> obtain rfl := hr.resolve_right hok <;> exact h.pop hw hpt hl hm
    | popped x hx =>
      rcases hx with rfl | rfl <;> obtain rfl := hr.resolve_right hok
      · exact .inl (h.stutter hl (by rw [hpt]; exact .popped x (.inr rfl)) hm)
      · exact h.ret hpt hl hm
    | drained =>
      obtain rfl := hr.resolve_right hok
      exact h.ret hpt hl hm
    | close =>
      obtain rfl := hr.resolve_right hok
      right
      refine ⟨.effect t, _, trivial, (BoundedStack.Step.close t hpt).run, h.move hl rfl (.closed (.inl rfl)) ?_ ?_ ?_⟩
      · rw [hm]
        exact h.elems
      · rw [hm]
        rfl
      · rw [hm]
        exact h.history
    | closed hx =>
      rcases hx with rfl | rfl <;> obtain rfl := hr.resolve_right hok
      · exact .inl (h.stutter hl (by rw [hpt]; exact .closed (.inr rfl)) hm)
      · exact h.ret hpt hl hm

end

/-- **The forward simulation.** -/
theorem stack_simulation (hw : cap * es < sizeT) (hb : block.length = allocSize cap es) :
    Conc.Sim (queueSystem T cap es block) closeLast (BoundedStack.system T Bytes cap) Quiet Stacked where
  init := ⟨fun _ => .idle, rfl, rfl, rfl⟩
  step s a s' u hr hR hP hs := by
    obtain ⟨hq, hc⟩ := queueSystem_inv hw hb (hr.mono fun _ _ h => h.1)
    have := hR.step hq.inv.wf hq.inv.elementSize hP (Code.trans_of_step hs).move
    have hcap : s.mem.queue.capacity = cap := hc
    rw [hcap] at this
    exact this

/-- **The queue refines an atomic bounded LIFO stack.** -/
theorem queue_refines_stack (hw : cap * es < sizeT) (hb : block.length = allocSize cap es) {s : QState T es}
    (h : Reach (queueSystem T cap es block) closeLast s) :
    ∃ u, Reach (BoundedStack.system T Bytes cap) Quiet u ∧
      -- the history of calls and returns is the abstract one
      s.mem.user = u.history.map eventRet ∧
      -- the stack lies byte for byte in the first `count` slots of the buffer
      s.mem.queue.count ≤ cap ∧ s.mem.queue.elems = u.stack.map Prod.snd ∧ u.stack.length = s.mem.queue.count ∧
      -- every push is popped at most once, and is otherwise still there
      (u.popped ++ u.stack).Perm u.pushed ∧ (u.popped ++ u.stack).Nodup ∧
      -- a pop returns 1 only when the queue is closed and everything ever pushed has been popped
      ∀ t, .ret t .pop ⟨1, []⟩ ∈ s.mem.user → s.mem.queue.closed = true ∧ u.stack = [] ∧ u.popped.Perm u.pushed := by
  obtain ⟨hq, hc⟩ := queueSystem_inv hw hb (h.mono fun _ _ h => h.1)
  obtain ⟨u, hu, hR⟩ := (stack_simulation hw hb).reach h
  have hcons := BoundedStack.conserved hu
  have hset := BoundedStack.drained_stays hu
  refine ⟨u, hu, hR.history, ?_, hR.elems.symm, hR.count, hcons.perm, hcons.nodup, fun t ht => ?_⟩
  · rw [← hR.count]
    exact hcons.le
  · rw [hR.history, List.mem_map] at ht
    obtain ⟨e, he, heq⟩ := ht
    cases e with
    | call t' o => cases heq
    | ret t' o r =>
      cases r with
      | drained =>
        obtain ⟨h1, h2⟩ := hset.ret t' o he
        refine ⟨hR.closed.symm.trans h1, h2, ?_⟩
        have := hcons.perm
        rwa [h2, List.append_nil] at this
      | _ => simp [eventRet, resRet] at heq

/-- The thread `t` pushes two elements, and `u` pops them both, and finds the queue closed and empty. -/
def pushPopClose {T : Type} (t u : T) : List (Conc.Act T Val) :=
  [.ret t (.val (.op (.push [7]))), .ret t .ok, .ret t .ok, .ret t .ok,
    .ret t (.val (.op (.push [8]))), .ret t .ok, .ret t .ok, .ret u (.val (.op .pop)), .ret t .ok,
    .ret u .ok, .ret u .ok, .ret u .ok, .ret u (.val (.op .pop)), .ret u .ok, .ret u .ok, .ret u .ok,
    .ret t (.val (.op .close)), .ret t .ok, .ret t .ok, .ret t .ok, .ret u (.val (.op .pop)), .ret u .ok, .ret u .ok]

theorem queue_refines_stack_pushPopClose :
    ∃ (s : QState (Fin 2) 1) (u : BoundedStack.St (Fin 2) Bytes),
      Reach (queueSystem (Fin 2) 2 1 [0, 0]) closeLast s ∧ .ret 1 .pop ⟨0, [8]⟩ ∈ s.mem.user ∧
      .ret 1 .pop ⟨1, []⟩ ∈ s.mem.user ∧ s.mem.queue.closed = true ∧ u.popped.Perm u.pushed := by
  obtain ⟨s, hr, h8, h1⟩ := reach_of_runP (T := queueSystem (Fin 2) 2 1 [0, 0]) (P := fun s a => closeLast s a)
    (fun s => .ret 1 .pop ⟨0, [8]⟩ ∈ s.mem.user ∧ .ret 1 .pop ⟨1, []⟩ ∈ s.mem.user) (pushPopClose 0 1) (by decide)
  have hr' := hr.mono (Q := closeLast) fun _ _ h => of_decide_eq_true h
  obtain ⟨u, -, -, -, -, -, -, -, h⟩ := queue_refines_stack (by decide) (by decide) hr'
  exact ⟨s, u, hr', h8, h1, (h 1 h1).1, (h 1 h1).2.2⟩

end MrLib
