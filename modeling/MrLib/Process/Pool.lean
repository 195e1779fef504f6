import MrLib.Lib.WorkLedger
import MrLib.Process.Poised

/-!
# A process is a pool

The controller and the workers of a process run as the abstract pool of `WorkPool` does: `Pooled` relates the two, and
`Pooled.step` matches every step of the threads by steps of the pool, blaming what goes wrong there (`Fault`) on a
failing call (`Blame`). The relation asks of the code only what `Contract` says: that `main`, `worker` and the pieces of
the loops are correct in the environments `ctlEnv` and `wkEnv`, which are the pool as the controller and as a worker see
it.
-/

namespace MrLib

open Conc Conc.WorkPool

variable {ω Φ : Type}

abbrev Heap (ω : Type) := ω → Option Node

/-- What the controller knows of its process: the nodes in the memory, and the pairs it has received. -/
structure Seen (ω : Type) where
  heap : Heap ω
  pairs : List (Bytes × Bytes)

def Seen.empty : Seen ω := ⟨fun _ => none, []⟩

/-! ## The history -/

/-- The elements the controller came to have. -/
def cameOf (es : List (Tid × Event ω)) : List ω :=
  es.flatMap fun e =>
    match e.2 with
    | .came xs => xs
    | _ => []

/-- The elements the user's function was called for. -/
def calledOf (es : List (Tid × Event ω)) : List ω :=
  es.filterMap fun e =>
    match e.2 with
    | .called x _ => some x
    | _ => none

/-- The calls of the user's function. -/
def callsOf (es : List (Tid × Event ω)) : List Sys :=
  es.filterMap fun e =>
    match e.2 with
    | .called _ e => some e
    | _ => none

/-- The elements for which it failed. -/
def failedOf (es : List (Tid × Event ω)) : List ω :=
  es.filterMap fun e =>
    match e.2 with
    | .failed x => some x
    | _ => none

def releasedOf (es : List (Tid × Event ω)) : List ω :=
  es.filterMap fun e =>
    match e.2 with
    | .released x => some x
    | _ => none

/-- The pairs that were received. -/
def receivedOf (es : List (Tid × Event ω)) : List (Bytes × Bytes) :=
  es.filterMap fun e =>
    match e.2 with
    | .pair token value => some (token, value)
    | _ => none

def Shared.seen (m : Shared ω) : Seen ω := ⟨m.heap, receivedOf m.events⟩

/-- Nothing is read after it was released. -/
def Fresh (es : List (Tid × Event ω)) : Prop :=
  es.Pairwise fun a b => ∀ x, a.2 = .released x → b.2 ≠ .read x

/-- The pool has the history `m`; a job is the call `job` says. -/
structure Synced (job : Heap ω → ω → Sys) (m : Shared ω) (g : State ω) : Prop where
  born : g.ctl.born = cameOf m.events
  called : g.called = calledOf m.events
  failed : g.failed = failedOf m.events
  released : g.released = releasedOf m.events
  jobs : ∀ t x e, (t, Event.called x e) ∈ m.events → e = job m.heap x
  left : ∀ i, (Tid.worker i, Event.left 1) ∈ m.events → g.wk i = .drained
  fresh : g.burnt = [] → g.ctl.born.Nodup → Fresh m.events

/-- The pool is in order, and has the history `m`. -/
structure Good (P : Spec) (job : Heap ω → ω → Sys) (m : Shared ω) (g : State ω) : Prop where
  inv : Inv P g
  ledger : Ledger P g
  faults : Faults P g
  synced : Synced job m g

/-! ## The pool as the threads see it -/

/-- The controller. -/
def ctlEnv (P : Spec) (v : Ctl ω × Seen ω) (c : PCall ω) (r : PRet ω) (v' : Ctl ω × Seen ω) : Prop :=
  match c with
  | .io c => (∃ r0, IoOk c r0 ∧ r = r0.inThread) ∧ v' = v
  | .create i =>
    i = v.1.created ∧ i < P.workers ∧ v.1.shut = false ∧
      (r = .int 0 ∧ v' = ({ v.1 with created := v.1.created + 1 }, v.2) ∨
        r = .int (-1) ∧ v' = ({ v.1 with createFailed := true }, v.2))
  | .push x =>
    v.1.shut = false ∧ v.1.created = P.workers ∧ v.1.Keeping ∧ ∃ rest, v.1.held = x :: rest ∧
      (r = .int 0 ∧ v' = ({ v.1 with held := rest }, v.2) ∨ r = .int (-1) ∧ v' = ({ v.1 with refused := true }, v.2))
  | .close => (r = .int 0 ∨ r = .int (-1)) ∧ v' = ({ v.1 with shut := true }, v.2)
  | .join i =>
    (∃ c, r = .joined (some c)) ∧ v' = ({ v.1 with joined := i :: v.1.joined }, v.2) ∨
      r = .joined none ∧ v' = ({ v.1 with joinFailed := true }, v.2)
  | .note (.came xs) => r = .done ∧ v' = ({ v.1 with held := v.1.held ++ xs, born := v.1.born ++ xs }, v.2)
  | .note (.pair token value) => r = .done ∧ v' = (v.1, { v.2 with pairs := v.2.pairs ++ [(token, value)] })
  | .note (.released x) =>
    r = .done ∧ ∃ rest, v.1.held = x :: rest ∧ v' = ({ v.1 with held := rest, dropped := v.1.dropped ++ [x] }, v.2)
  | .load x => r = .node (v.2.heap x) ∧ x ∈ v.1.held ∧ v' = v
  | .share heap => r = .done ∧ v.1.created = 0 ∧ v' = (v.1, { v.2 with heap := heap })
  | _ => False

/-- A failing log ends a worker that has nothing. -/
def stumble (n : Int) : Wk ω → Wk ω
  | .idle => if n = -1 then .broken else .idle
  | w => w

/-- The model does not go on after something undefined, and the worker may be taken to be out then. -/
def shaken (e : Sys) (w : Wk ω) : Wk ω :=
  match e with
  | .stuck => .broken
  | _ => w

/-- A worker. -/
def wkEnv (P : Spec) (job : Heap ω → ω → Sys) (v : Wk ω × Heap ω) (c : PCall ω) (r : PRet ω) (v' : Wk ω × Heap ω) :
    Prop :=
  match c with
  | .io (.log _ _) => ∃ n, r = .int n ∧ v' = (stumble n v.1, v.2)
  | .io (.sys e) => ∃ r0, IoOk (.sys e) (.sys r0) ∧ r = .sys r0 ∧ v' = (shaken e v.1, v.2)
  | .pop =>
    v.1 = .idle ∧ ((∃ x, r = .popped 0 (some x) ∧ v' = (.has x, v.2)) ∨ r = .popped 1 none ∧ v' = (.drained, v.2) ∨
      r = .popped (-1) none ∧ v' = (.broken, v.2))
  | .emit _ => (∃ n, r = .int n) ∧ v' = v
  | .load x => r = .node (v.2 x) ∧ v.1.Owns x ∧ v' = v
  | .note (.called x e) => r = .done ∧ e = job v.2 x ∧ v.1 = .has x ∧ v' = (.using x, v.2)
  | .note (.failed x) => r = .done ∧ v.1 = .using x ∧ v' = (.erred x, v.2)
  | .note (.released x) => r = .done ∧ (v.1 = .using x ∧ v' = (.idle, v.2) ∨ v.1 = .erred x ∧ v' = (P.after, v.2))
  | .note (.left n) => r = .done ∧ (n = 1 → v.1 = .drained) ∧ v' = v
  | _ => False

/-- **What the code of a process has to satisfy.** -/
structure Contract (C : ProcessCode ω Φ) (P : Spec) (job : Heap ω → ω → Sys) where
  workers_pos : 0 < P.workers
  ctlPhase : Φ → Ctl ω × Seen ω → Prop
  ctlExit : Int → Ctl ω × Seen ω → Prop
  wkPhase : Φ → Wk ω × Heap ω → Prop
  main : C.main.run.Wp (ctlEnv P) (Ends ctlPhase ctlExit) (.start, .empty)
  ctlBody : ∀ ph v, ctlPhase ph v → (C.body ph).run.Wp (ctlEnv P) (Ends ctlPhase ctlExit) v
  worker : ∃ c k, C.worker.run = .call (.io c) k ∧
    ∀ h, (Prog.call (.io c) k).Wp (wkEnv P job) (Ends wkPhase fun _ v => v.1.out = true) (.idle, h)
  wkBody : ∀ ph v, wkPhase ph v → (C.body ph).run.Wp (wkEnv P job) (Ends wkPhase fun _ v => v.1.out = true) v

section

variable {C : ProcessCode ω Φ} {P : Spec} {job : Heap ω → ω → Sys}

/-- The controller is poised. -/
abbrev Contract.ctl (K : Contract C P job) (v : Ctl ω × Seen ω) (f : PFrame ω (Except Int Φ)) : Prop :=
  Poised (ctlEnv P) (Ends K.ctlPhase K.ctlExit) v f

/-- A worker is poised. -/
abbrev Contract.wk (K : Contract C P job) (v : Wk ω × Heap ω) (f : PFrame ω (Except Int Φ)) : Prop :=
  Poised (wkEnv P job) (Ends K.wkPhase fun _ v => v.1.out = true) v f

/-- The controller is at `l`, and sees `v`. A push that fails has failed as soon as the call in it that does. -/
def Contract.AtCtl (K : Contract C P job) (l : TLoc (Option ω) 1 (PFrame ω (Except Int Φ))) (v : Ctl ω × Seen ω) :
    Prop :=
  match l with
  | .done c => v.1.op = .none ∧ K.ctlExit c v
  | .log _ f => v.1.op = .none ∧ (∃ level format, f.call = .io (.log level format)) ∧ K.ctl v f
  | .own f => v.1.op = .none ∧
    (f.own = .sys .stuck ∧ (∃ p : ThreadProg ω (Except Int Φ), p.Wp (ctlEnv P) (Ends K.ctlPhase K.ctlExit) v) ∨
      K.ctl v f ∧ ((∃ e, f.call = .io (.sys e)) ∨ (∃ i, f.call = .create i) ∨
      ∃ i, f.call = .join i))
  | .queue (.pushLock y) f | .queue (.pushWait y) f =>
    ∃ x, y = cell x ∧ f.call = .push x ∧ v.1.op = .pushing x ∧ K.ctl ({ v.1 with op := .none }, v.2) f
  | .queue .pushSignal f | .queue .pushUnlock f =>
    ∃ x, f.call = .push x ∧ v.1.op = .pushed x ∧
      K.ctl ({ v.1 with op := .none, held := x :: v.1.held }, v.2) f
  | .queue .pushFailed f => v.1.op = .none ∧ ∃ x c, f.call = .push x ∧ v.1 = { c with refused := true } ∧ K.ctl (c, v.2) f
  | .queue .closeLock f | .queue .closeBroadcast f | .queue .closeUnlock f | .queue .closeFailed f =>
    v.1.op = .none ∧ f.call = .close ∧ ∃ c, v.1 = { c with shut := true } ∧ K.ctl (c, v.2) f
  | _ => False

/-- Where a worker is in `mr_queue_pop`. -/
def AtPop : QLoc (Option ω) 1 → Wk ω → Prop
  | .popLock, w | .popWait, w => w = .idle
  | .popSignal y, w | .popUnlock y, w => ∃ x, y = [some x] ∧ w = .took x
  | .popClosed, w => w = .found
  | .popFailed, w => w = .broken
  | _, _ => False

/-- A worker is at `l`, and sees `v`. -/
def Contract.AtWk (K : Contract C P job) (l : TLoc (Option ω) 1 (PFrame ω (Except Int Φ))) (v : Wk ω × Heap ω) :
    Prop :=
  match l with
  | .absent => v.1 = .absent
  | .done _ => v.1.out = true
  | .log _ f => (∃ level format, f.call = .io (.log level format)) ∧ K.wk v f
  | .own f => f.own = .sys .stuck ∨ K.wk v f ∧ ∃ e, f.call = .io (.sys e)
  | .emit m _ f => f.call = .emit m ∧ K.wk v f
  | .queue q f => f.call = .pop ∧ K.wk (.idle, v.2) f ∧ AtPop q v.1

/-- The queue holds the stack of the pool. -/
structure QueueIs (P : Spec) (q : Queue (Option ω)) (stack : List ω) (closed : Bool) : Prop where
  wf : q.WF
  size : q.elementSize = 1
  capacity : q.capacity = P.capacity
  elems : q.elems = stack.map fun x => [some x]
  closed : q.closed = closed

/-- **The threads run as the pool.** -/
structure Pooled (K : Contract C P job) (s : PoolState ω Φ) (g : State ω) : Prop where
  good : Good P job s.mem.user g
  ctl : K.AtCtl (s.loc .controller) (g.ctl, s.mem.user.seen)
  wk : ∀ i, K.AtWk (s.loc (.worker i)) (g.wk i, s.mem.user.heap)
  absent : ∀ i, g.ctl.created ≤ i → s.loc (.worker i) = .absent
  joined : ∀ i ∈ g.ctl.joined, ∃ c, s.loc (.worker i) = .done c
  queue : QueueIs P s.mem.queue g.stack g.closed

/-- The call whose failure is to blame for a fault. -/
def Blame (s : PoolState ω Φ) (a : Act Tid Val) : Fault → Prop
  | .none => True
  | .refused => a = .ret .controller .fail ∧
    ∃ y f, s.loc .controller = .queue (.pushLock y) f ∨ s.loc .controller = .queue (.pushWait y) f
  | .burnt => a = .ret .controller .fail ∧
    ∃ f, s.loc .controller = .queue .pushSignal f ∨ s.loc .controller = .queue .pushUnlock f
  | .lost => ∃ i, a = .ret (.worker i) .fail ∧
    ∃ y f, s.loc (.worker i) = .queue (.popSignal y) f ∨ s.loc (.worker i) = .queue (.popUnlock y) f
  | .crashed => ∃ i,
    (a = .ret (.worker i) .fail ∧ ∃ f, s.loc (.worker i) = .queue .popLock f ∨ s.loc (.worker i) = .queue .popWait f) ∨
      ∃ l f r, s.loc (.worker i) = .log l f ∧ a = .ret (.worker i) r ∧ l.next r = .inr (-1)
  | .createFailed => a = .ret .controller .fail ∧ ∃ f i, s.loc .controller = .own f ∧ f.call = .create i
  | .joinFailed => a = .ret .controller .fail ∧ ∃ f i, s.loc .controller = .own f ∧ f.call = .join i

/-! ## Reading and recording -/

theorem Steps.trans {g g' g'' : State ω} {fs fs' : List Fault} (h : Steps P g fs g') (h' : Steps P g' fs' g'') :
    Steps P g (fs ++ fs') g'' := by
  induction h with
  | nil => exact h'
  | cons hs _ ih => exact .cons hs (ih h')

/-- What a worker has found out stays true. -/
theorem drained_step {g g' : State ω} {f : Fault} (hI : Inv P g) (hs : Step P g f g') {i : Nat}
    (h : g.wk i = .drained) : g'.wk i = .drained := by
  cases hs with
  | create _ _ _ =>
    refine (move_of_ne g .idle ?_).trans h
    rintro rfl
    rw [(hI.absent _).mpr (Nat.le_refl _)] at h
    cases h
  | take j _ _ hw _ | got j _ hw | lose j _ hw | find j hw _ _ | drain j hw | crash j hw | call j _ hw | fail j _ hw
  | release j _ hw | releaseFailed j _ hw =>
    refine (move_of_ne g _ ?_).trans h
    rintro rfl
    rw [h] at hw
    cases hw
  | _ => exact h

/-- What was burnt stays burnt. -/
theorem burnt_step {g g' : State ω} {f : Fault} (hs : Step P g f g') (h : g'.burnt = []) : g.burnt = [] := by
  cases hs with
  | burn x _ => exact absurd h (by simp)
  | _ => exact h

/-- A step that the history does not record. -/
theorem Good.quiet {m : Shared ω} {g g' : State ω} {f : Fault} (h : Good P job m g) (hs : Step P g f g')
    (hb : g'.ctl.born = g.ctl.born) (hc : g'.called = g.called) (hf : g'.failed = g.failed)
    (hr : g'.released = g.released) : Good P job m g' where
  inv := h.inv.step hs
  ledger := h.ledger.step h.inv hs
  faults := h.faults.step h.inv hs
  synced :=
    { born := hb.trans h.synced.born
      called := hc.trans h.synced.called
      failed := hf.trans h.synced.failed
      released := hr.trans h.synced.released
      jobs := h.synced.jobs
      left := fun i hi => drained_step h.inv hs (h.synced.left i hi)
      fresh := fun hbu hn => h.synced.fresh (burnt_step hs hbu) (by rw [← hb]; exact hn) }

section

variable {m : Shared ω} {g g' : State ω} {t : Tid} {e : Event ω}

theorem cameOf_append (es es' : List (Tid × Event ω)) : cameOf (es ++ es') = cameOf es ++ cameOf es' := by
  simp [cameOf]

theorem calledOf_append (es es' : List (Tid × Event ω)) : calledOf (es ++ es') = calledOf es ++ calledOf es' := by
  simp [calledOf]

theorem failedOf_append (es es' : List (Tid × Event ω)) : failedOf (es ++ es') = failedOf es ++ failedOf es' := by
  simp [failedOf]

theorem releasedOf_append (es es' : List (Tid × Event ω)) :
    releasedOf (es ++ es') = releasedOf es ++ releasedOf es' := by
  simp [releasedOf]

theorem mem_releasedOf {es : List (Tid × Event ω)} {x : ω} : x ∈ releasedOf es ↔ ∃ t, (t, Event.released x) ∈ es := by
  simp only [releasedOf, List.mem_filterMap, Prod.exists]
  constructor
  · rintro ⟨t, e, hm, he⟩
    cases e <;> cases he
    exact ⟨t, hm⟩
  · rintro ⟨t, hm⟩
    exact ⟨t, _, hm, rfl⟩

/-- An event is recorded, and the pool goes along with it. -/
theorem Synced.record (h : Synced job m g) (hb : g'.ctl.born = g.ctl.born ++ cameOf [(t, e)])
    (hc : g'.called = g.called ++ calledOf [(t, e)]) (hf : g'.failed = g.failed ++ failedOf [(t, e)])
    (hr : g'.released = g.released ++ releasedOf [(t, e)]) (hjob : ∀ x c, e = .called x c → c = job m.heap x)
    (hold : ∀ i, g.wk i = .drained → g'.wk i = .drained)
    (hleft : ∀ i, t = .worker i → e = .left 1 → g'.wk i = .drained) (hbu : g'.burnt = g.burnt)
    (hread : g.burnt = [] → g.ctl.born.Nodup → ∀ x, e = .read x → x ∉ g.released) : Synced job (m.record t e) g' where
  born := by rw [hb, h.born, Shared.record, cameOf_append]
  called := by rw [hc, h.called, Shared.record, calledOf_append]
  failed := by rw [hf, h.failed, Shared.record, failedOf_append]
  released := by rw [hr, h.released, Shared.record, releasedOf_append]
  jobs u x c hm := by
    simp only [Shared.record, List.mem_append, List.mem_singleton, Prod.mk.injEq] at hm
    rcases hm with hm | ⟨-, rfl⟩
    · exact h.jobs u x c hm
    · exact hjob x c rfl
  left i hm := by
    simp only [Shared.record, List.mem_append, List.mem_singleton, Prod.mk.injEq] at hm
    rcases hm with hm | ⟨hti, hei⟩
    · exact hold i (h.left i hm)
    · exact hleft i hti.symm hei.symm
  fresh hbu' hn := by
    rw [hbu] at hbu'
    rw [hb] at hn
    have hn' := hn.sublist (List.sublist_append_left _ _)
    simp only [Fresh, Shared.record]
    rw [List.pairwise_append]
    refine ⟨h.fresh hbu' hn', List.pairwise_singleton _ _, fun a ha b hm x hrel hrd => ?_⟩
    rw [List.mem_singleton.mp hm] at hrd
    refine hread hbu' hn' x hrd ?_
    rw [h.released, mem_releasedOf]
    exact ⟨a.1, by rw [← hrel]; exact ha⟩

/-- An event is recorded that the pool does not care about. -/
theorem Good.remark (h : Good P job m g) (hb : cameOf [(t, e)] = []) (hc : calledOf [(t, e)] = [])
    (hf : failedOf [(t, e)] = []) (hr : releasedOf [(t, e)] = [])
    (hleft : ∀ i, t = .worker i → e = .left 1 → g.wk i = .drained)
    (hread : g.burnt = [] → g.ctl.born.Nodup → ∀ x, e = .read x → x ∉ g.released) : Good P job (m.record t e) g where
  inv := h.inv
  ledger := h.ledger
  faults := h.faults
  synced := h.synced.record (by rw [hb, List.append_nil]) (by rw [hc, List.append_nil]) (by rw [hf, List.append_nil])
    (by rw [hr, List.append_nil]) (fun x c he => by rw [he] at hc; cases hc) (fun _ hd => hd) hleft rfl hread

/-- An event is recorded, and the pool makes the step that goes with it. -/
theorem Good.noted (h : Good P job m g) {f : Fault} (hs : Step P g f g')
    (hb : g'.ctl.born = g.ctl.born ++ cameOf [(t, e)]) (hc : g'.called = g.called ++ calledOf [(t, e)])
    (hf : g'.failed = g.failed ++ failedOf [(t, e)]) (hr : g'.released = g.released ++ releasedOf [(t, e)])
    (hjob : ∀ x c, e = .called x c → c = job m.heap x) (hleft : ∀ n, e ≠ .left n) (hread : ∀ x, e ≠ .read x)
    (hbu : g'.burnt = g.burnt) : Good P job (m.record t e) g' where
  inv := h.inv.step hs
  ledger := h.ledger.step h.inv hs
  faults := h.faults.step h.inv hs
  synced := h.synced.record hb hc hf hr hjob (fun _ => drained_step h.inv hs) (fun _ _ he => absurd he (hleft 1)) hbu
    fun _ _ x he => absurd he (hread x)

/-- Steps in which nothing goes wrong. -/
def Smooth (P : Spec) (g g' : State ω) : Prop := ∃ fs, Steps P g fs g' ∧ ∀ f ∈ fs, f = .none

theorem Smooth.refl (g : State ω) : Smooth P g g := ⟨[], .nil, fun _ h => by cases h⟩

theorem Smooth.cons {g'' : State ω} (h : Step P g .none g') (h' : Smooth P g' g'') : Smooth P g g'' := by
  obtain ⟨fs, hs, hf⟩ := h'
  refine ⟨.none :: fs, .cons h hs, fun f hm => ?_⟩
  rcases List.mem_cons.mp hm with rfl | hm
  · rfl
  · exact hf f hm

theorem Smooth.trans {g'' : State ω} (h : Smooth P g g') (h' : Smooth P g' g'') : Smooth P g g'' := by
  obtain ⟨fs, hs, hf⟩ := h
  obtain ⟨fs', hs', hf'⟩ := h'
  refine ⟨fs ++ fs', Steps.trans hs hs', fun f hm => ?_⟩
  rcases List.mem_append.mp hm with hm | hm
  · exact hf f hm
  · exact hf' f hm

theorem seen_record (m : Shared ω) (t : Tid) (e : Event ω) :
    (m.record t e).seen = ⟨m.heap, m.seen.pairs ++ receivedOf [(t, e)]⟩ := by
  simp [Shared.seen, Shared.record, receivedOf]

theorem seen_record_of {m : Shared ω} {t : Tid} {e : Event ω} (h : receivedOf [(t, e)] = []) :
    (m.record t e).seen = m.seen := by
  rw [seen_record, h, List.append_nil]
  rfl

/-- What the controller reads is there. -/
theorem reads_ctl (P : Spec) : Reads (ctlEnv P) (ω := ω) .controller fun v m => v.2 = m.seen := by
  rintro v m c r m' hk ⟨r0, v0, h0⟩ he
  cases c with
  | share heap =>
    cases he
    exact ⟨_, ⟨rfl, h0.2.1, rfl⟩, by rw [hk]; rfl⟩
  | load x =>
    cases he
    exact ⟨v, ⟨by rw [hk]; rfl, h0.2.1, rfl⟩, hk.trans (seen_record_of rfl).symm⟩
  | note e =>
    cases he
    cases e with
    | came xs => exact ⟨_, ⟨rfl, rfl⟩, hk.trans (seen_record_of rfl).symm⟩
    | pair token value => exact ⟨_, ⟨rfl, rfl⟩, by simp only [hk, seen_record]; rfl⟩
    | released x =>
      obtain ⟨-, rest, hh, -⟩ := h0
      exact ⟨_, ⟨rfl, rest, hh, rfl⟩, hk.trans (seen_record_of rfl).symm⟩
    | _ => cases h0
  | _ => cases he

/-- Without workers no job has been run. -/
theorem Good.called_eq_nil (h : Good P job m g) (hP : 0 < P.workers) (hc : g.ctl.created = 0) : g.called = [] := by
  have hput : g.puts = [] := by
    by_contra hne
    have := h.inv.puts hne
    omega
  have hle : (g.called : Multiset ω) ≤ g.puts := by
    rw [h.ledger.work]
    exact Multiset.le_add_left _ _
  rw [hput] at hle
  exact (Multiset.coe_eq_zero _).mp (Multiset.le_zero.mp hle)

/-- The controller says which nodes are in the memory, before there are workers. -/
theorem Good.share (h : Good P job m g) (hP : 0 < P.workers) (hc : g.ctl.created = 0) (heap : Heap ω) :
    Good P job { m with heap := heap } g where
  inv := h.inv
  ledger := h.ledger
  faults := h.faults
  synced :=
    { born := h.synced.born
      called := h.synced.called
      failed := h.synced.failed
      released := h.synced.released
      jobs := fun t x e hm => by
        have hx : x ∈ calledOf m.events := List.mem_filterMap.mpr ⟨_, hm, rfl⟩
        rw [← h.synced.called, h.called_eq_nil hP hc] at hx
        cases hx
      left := h.synced.left
      fresh := h.synced.fresh }

/-- The controller reads and records. -/
theorem noted_ctl (hP : 0 < P.workers) {v v' : Ctl ω × Seen ω} {m' : Shared ω} (h : Noted (ctlEnv P) .controller v m v' m')
    (hg : Good P job m g) (hv : v = (g.ctl, m.seen)) (ho : g.ctl.op = .none) :
    ∃ g', Smooth P g g' ∧ Good P job m' g' ∧ v' = (g'.ctl, m'.seen) ∧ g'.ctl.op = .none ∧ g'.wk = g.wk ∧
      g'.stack = g.stack ∧ g'.closed = g.closed ∧ g'.ctl.created = g.ctl.created ∧ g'.ctl.joined = g.ctl.joined ∧
      (m'.heap = m.heap ∨ g.ctl.created = 0) := by
  induction h generalizing g with
  | refl => exact ⟨g, .refl g, hg, hv, ho, rfl, rfl, rfl, rfl, rfl, .inl rfl⟩
  | @step v v1 v2 m m1 m2 c r he hv1 _ ih =>
    subst hv
    cases c with
    | share heap =>
      cases he
      obtain ⟨-, hc, rfl⟩ := hv1
      obtain ⟨g', hs, hgd, h1, h2, h3, h4, h5, h6, h7, -⟩ := ih (hg.share hP hc heap) rfl ho
      exact ⟨g', hs, hgd, h1, h2, h3, h4, h5, h6, h7, .inr hc⟩
    | load x =>
      cases he
      obtain ⟨-, hx, rfl⟩ := hv1
      refine ih (g := g) ?_ (by rw [seen_record_of rfl]) ho
      exact hg.remark rfl rfl rfl rfl (fun _ h => by cases h) fun hb hn y hy => by
        cases hy
        exact (hg.ledger.unique hg.inv hb hn).2.2.1 x hx
    | note e =>
      cases he
      cases e with
      | came xs =>
        obtain ⟨-, rfl⟩ := hv1
        have hstep := Step.come (P := P) xs ho
        obtain ⟨g', hs, hrest⟩ := ih (hg.noted (e := .came xs) (t := .controller) hstep (by simp [cameOf])
          (by simp [calledOf]) (by simp [failedOf]) (by simp [releasedOf]) nofun nofun nofun rfl)
          (by rw [seen_record_of rfl]) ho
        exact ⟨g', hs.cons hstep, hrest⟩
      | pair token value =>
        obtain ⟨-, rfl⟩ := hv1
        refine ih (g := g) ?_ (by rw [seen_record]; rfl) ho
        exact hg.remark rfl rfl rfl rfl (fun _ h => by cases h) fun _ _ _ h => by cases h
      | released x =>
        obtain ⟨-, rest, hh, rfl⟩ := hv1
        have hstep := Step.drop (P := P) x rest ho hh
        obtain ⟨g', hs, hrest⟩ := ih (hg.noted (e := .released x) (t := .controller) hstep (by simp [cameOf])
          (by simp [calledOf]) (by simp [failedOf]) (by simp [releasedOf]) nofun nofun nofun rfl)
          (by rw [seen_record_of rfl]) ho
        exact ⟨g', hs.cons hstep, hrest⟩
      | _ => cases hv1
    | _ => cases he

/-- What a worker reads is there. -/
theorem reads_wk (P : Spec) (job : Heap ω → ω → Sys) (t : Tid) :
    Reads (wkEnv P job) t fun v m => v.2 = m.heap := by
  rintro v m c r m' hk ⟨r0, v0, h0⟩ he
  cases c with
  | load x =>
    cases he
    exact ⟨v, ⟨by rw [hk], h0.2.1, rfl⟩, hk⟩
  | note e =>
    cases he
    cases e with
    | called x e => exact ⟨_, ⟨rfl, h0.2.1, h0.2.2.1, rfl⟩, hk⟩
    | failed x => exact ⟨_, ⟨rfl, h0.2.1, rfl⟩, hk⟩
    | released x =>
      rcases h0.2 with ⟨hw, -⟩ | ⟨hw, -⟩
      · exact ⟨_, ⟨rfl, .inl ⟨hw, rfl⟩⟩, hk⟩
      · exact ⟨_, ⟨rfl, .inr ⟨hw, rfl⟩⟩, hk⟩
    | left n => exact ⟨v, ⟨rfl, h0.2.1, rfl⟩, hk⟩
    | _ => cases h0
  | share heap => cases h0
  | _ => cases he

/-- A worker reads and records. -/
theorem noted_wk {i : Nat} {v v' : Wk ω × Heap ω} {m' : Shared ω} (h : Noted (wkEnv P job) (.worker i) v m v' m')
    (hg : Good P job m g) (hv : v = (g.wk i, m.heap)) :
    ∃ g', Smooth P g g' ∧ Good P job m' g' ∧ v' = (g'.wk i, m'.heap) ∧ g'.ctl = g.ctl ∧
      (∀ j, j ≠ i → g'.wk j = g.wk j) ∧ g'.stack = g.stack ∧ g'.closed = g.closed ∧ m'.seen = m.seen := by
  induction h generalizing g with
  | refl => exact ⟨g, .refl g, hg, hv, rfl, fun _ _ => rfl, rfl, rfl, rfl⟩
  | @step v v1 v2 m m1 m2 c r he hv1 _ ih =>
    subst hv
    -- one step of the worker, and the rest
    have go : ∀ {g1 : State ω}, Step P g .none g1 → Good P job m1 g1 → v1 = (g1.wk i, m1.heap) → g1.ctl = g.ctl →
        (∀ j, j ≠ i → g1.wk j = g.wk j) → g1.stack = g.stack → g1.closed = g.closed → m1.seen = m.seen →
        ∃ g', Smooth P g g' ∧ Good P job m2 g' ∧ v2 = (g'.wk i, m2.heap) ∧ g'.ctl = g.ctl ∧
          (∀ j, j ≠ i → g'.wk j = g.wk j) ∧ g'.stack = g.stack ∧ g'.closed = g.closed ∧ m2.seen = m.seen := by
      intro g1 hs hg1 hv1 hc hw hst hcl hm
      obtain ⟨g', h0, h1, h2, h3, h4, h5, h6, h7⟩ := ih hg1 hv1
      exact ⟨g', h0.cons hs, h1, h2, h3.trans hc, fun j hj => (h4 j hj).trans (hw j hj), h5.trans hst, h6.trans hcl,
        h7.trans hm⟩
    cases c with
    | load x =>
      cases he
      obtain ⟨-, hx, rfl⟩ := hv1
      obtain ⟨g', h0, h1, h2, h3, h4, h5, h6, h7⟩ := ih (g := g) (hg.remark rfl rfl rfl rfl (fun _ _ h => by cases h)
        fun hb hn y hy => by
          cases hy
          exact (hg.ledger.unique hg.inv hb hn).2.2.2 i x hx) rfl
      exact ⟨g', h0, h1, h2, h3, h4, h5, h6, h7.trans (seen_record_of rfl)⟩
    | note e =>
      cases he
      cases e with
      | called x e =>
        obtain ⟨-, hj, hw, rfl⟩ := hv1
        have hstep := Step.call (P := P) i x hw
        refine go hstep (hg.noted (e := .called x e) hstep (by simp [cameOf, State.move]) (by simp [calledOf])
          (by simp [failedOf, State.move]) (by simp [releasedOf, State.move]) ?_ (by simp) (by simp) rfl)
          (by simp [State.move]; rfl) rfl (fun j hji => move_of_ne g _ hji) rfl rfl (seen_record_of rfl)
        rintro y c hyc
        cases hyc
        exact hj
      | failed x =>
        obtain ⟨-, hw, rfl⟩ := hv1
        have hstep := Step.fail (P := P) i x hw
        exact go hstep (hg.noted (e := .failed x) hstep (by simp [cameOf, State.move])
          (by simp [calledOf, State.move]) (by simp [failedOf]) (by simp [releasedOf, State.move]) (by simp) (by simp) (by simp) rfl)
          (by simp [State.move]; rfl) rfl (fun j hji => move_of_ne g _ hji) rfl rfl (seen_record_of rfl)
      | released x =>
        obtain ⟨-, ⟨hw, rfl⟩ | ⟨hw, rfl⟩⟩ := hv1
        · have hstep := Step.release (P := P) i x hw
          exact go hstep (hg.noted (e := .released x) hstep (by simp [cameOf, State.move])
            (by simp [calledOf, State.move]) (by simp [failedOf, State.move]) (by simp [releasedOf]) (by simp)
            (by simp) (by simp) rfl) (by simp [State.move]; rfl) rfl (fun j hji => move_of_ne g _ hji) rfl rfl (seen_record_of rfl)
        · have hstep := Step.releaseFailed (P := P) i x hw
          exact go hstep (hg.noted (e := .released x) hstep (by simp [cameOf, State.move])
            (by simp [calledOf, State.move]) (by simp [failedOf, State.move]) (by simp [releasedOf]) (by simp)
            (by simp) (by simp) rfl) (by simp [State.move]; rfl) rfl (fun j hji => move_of_ne g _ hji) rfl rfl (seen_record_of rfl)
      | left n =>
        obtain ⟨-, hn, rfl⟩ := hv1
        obtain ⟨g', h0, h1, h2, h3, h4, h5, h6, h7⟩ := ih (g := g) (hg.remark rfl rfl rfl rfl (fun j hj he => by
          cases hj
          cases he
          exact hn rfl) fun _ _ _ h => by cases h) rfl
        exact ⟨g', h0, h1, h2, h3, h4, h5, h6, h7.trans (seen_record_of rfl)⟩
      | _ => cases hv1
    | share heap => cases hv1
    | _ => cases he

end

end

end MrLib
