import MrLib.Lib.Guarded
import MrLib.Queue.Monitor
import MrLib.Runtime

/-!
# Every process runs its queue as a monitor

Whatever its client does, a process refines the monitor of its queue: as long as no mutex or condition-variable call
fails, a step of the process leaves the monitor as it was or is a step of the monitor (`monitor_step`). So the
invariant of the monitor holds in every process (`QueueInv`, `QueueInv.step`), together with the fact that the owner of
the queue's mutex is the thread inside a queue operation.
-/

namespace MrLib

open Conc

variable {T β μ F : Type} {es : Nat}

/-- The location inside a queue operation. -/
def TLoc.queueLoc : TLoc β es F → Option (QLoc β es)
  | .queue q _ => some q
  | _ => none

/-- The thread is between the lock of the queue's mutex and its unlock. -/
def TLoc.inQueue (l : TLoc β es F) : Prop := ∃ q f, l = .queue q f ∧ q.prim ≠ .lock

/-- The primitive of the queue that a call is. -/
def onQueue {E : Type} : Call T Mtx Cv E → Option Prim
  | .mtxLock .queue => some .lock
  | .mtxUnlock .queue => some .unlock
  | .cndWait c _ => some (.wait c)
  | .cndSignal c => some (.signal c)
  | .cndBroadcast c => some (.broadcast c)
  | _ => none

@[simp] theorem onQueue_call {E : Type} (p : Prim) : onQueue (p.call (T := T) (E := E)) = some p := by cases p <;> rfl

/-- The queue's mutex and condition variables are used by queue operations only. -/
theorem onQueue_runtime (cl : Client T β es μ F) (l : TLoc β es F) :
    onQueue ((runtime cl).call l) = l.queueLoc.map QLoc.prim := by
  cases l with
  | queue q f => exact onQueue_call _
  | emit m e f => cases e <;> rfl
  | own f =>
    show onQueue (cl.call f).call = none
    cases cl.call f <;> rfl
  | _ => rfl

/-- Going on to the next function never enters the critical section. -/
theorem not_inQueue_enter (n : Next β es F) : ¬ n.enter.inQueue := by
  rintro ⟨q, f, h, hq⟩
  cases n <;> simp only [Next.enter, reduceCtorEq, TLoc.queue.injEq] at h
  all_goals
    obtain ⟨rfl, -⟩ := h
    exact hq rfl

/-- Outside the queue operations the queue does not change and its critical section is not entered. -/
theorem next_outside (cl : Client T β es μ F) {l : TLoc β es F} (h : l.queueLoc = none) (t : T) (r : Ret Val)
    (x : Mem β μ) :
    ((runtime cl).next t l r x).2.queue = x.queue ∧ ¬ ((runtime cl).next t l r x).1.inQueue := by
  cases l with
  | absent => exact ⟨rfl, fun ⟨_, _, e, _⟩ => nomatch e⟩
  | log l f =>
    simp only [runtime, TLoc.next]
    split
    · exact ⟨rfl, fun ⟨_, _, e, _⟩ => nomatch e⟩
    · exact ⟨rfl, not_inQueue_enter _⟩
  | queue q f => cases h
  | emit m e f =>
    simp only [runtime, TLoc.next]
    split
    · exact ⟨rfl, fun ⟨_, _, e, _⟩ => nomatch e⟩
    · exact ⟨rfl, not_inQueue_enter _⟩
  | own f => exact ⟨rfl, not_inQueue_enter _⟩
  | done c => exact ⟨rfl, fun ⟨_, _, e, _⟩ => nomatch e⟩

/-- After its unlock an operation has returned. -/
theorem next_unlock {V : Type} {q : Queue β} {l : QLoc β es} (h : l.prim = .unlock) (r : Ret V) :
    ∃ b, l.next q r = (.inr b, q) := by
  cases l <;> simp only [QLoc.prim, reduceCtorEq] at h <;> cases r <;> exact ⟨_, rfl⟩

theorem pushTest_prim (q : Queue β) (x : Elem β es) : (q.pushTest x).1.prim ≠ .lock := by
  unfold Queue.pushTest
  split <;> simp [QLoc.prim]

theorem popTest_prim (q : Queue β) : (q.popTest : QLoc β es × Queue β).1.prim ≠ .lock := by
  unfold Queue.popTest
  split
  · split <;> simp [QLoc.prim]
  · simp [QLoc.prim]

/-- Until its unlock an operation stays in the critical section. -/
theorem next_inside {V : Type} (q : Queue β) {l : QLoc β es} (h : l.prim ≠ .unlock) (hl : l.prim ≠ .lock) (r : Ret V) :
    ∃ l' q', l.next q r = (.inl l', q') ∧ l'.prim ≠ .lock := by
  cases l <;> simp only [QLoc.prim, ne_eq, not_true, reduceCtorEq, not_false_eq_true] at h hl <;> cases r <;>
    first
      | exact ⟨_, _, rfl, pushTest_prim _ _⟩
      | exact ⟨_, _, rfl, popTest_prim _⟩
      | exact ⟨_, _, rfl, by simp [QLoc.prim]⟩

/-- A successful lock enters the critical section. -/
theorem next_lock {V : Type} (q : Queue β) {l : QLoc β es} (h : l.prim = .lock) :
    ∃ l' q', l.next q (.ok : Ret V) = (.inl l', q') ∧ l'.prim ≠ .lock := by
  cases l <;> simp only [QLoc.prim, reduceCtorEq] at h
  · exact ⟨_, _, rfl, pushTest_prim _ _⟩
  · exact ⟨_, _, rfl, popTest_prim _⟩
  · exact ⟨_, _, rfl, by simp [QLoc.prim]⟩

/-- A signal or a broadcast leaves the queue as it is. -/
theorem next_wake {V : Type} (q : Queue β) {l : QLoc β es} {c : Cv} (h : l.prim = .signal c ∨ l.prim = .broadcast c) :
    ∃ l', l.next q (.ok : Ret V) = (.inl l', q) := by
  cases l <;> simp only [QLoc.prim, reduceCtorEq, or_self] at h <;> exact ⟨_, rfl⟩

/-- A successful call does the same whatever the other calls return. -/
theorem next_ok_inl {V W : Type} {q q' : Queue β} {l l' : QLoc β es} (h : l.next q (.ok : Ret V) = (.inl l', q')) :
    l.next q (.ok : Ret W) = (.inl l', q') := by
  cases l <;> exact h

/-- Who calls a primitive of the queue is in a queue operation. -/
theorem queue_of_call {cl : Client T β es μ F} {l : TLoc β es F} {c : Call T Mtx Cv Sys} (h : (runtime cl).call l = c)
    {p : Prim} (hp : onQueue c = some p) : ∃ q f, l = .queue q f ∧ q.prim = p := by
  have hl := onQueue_runtime cl l
  rw [h, hp] at hl
  cases l <;> simp only [TLoc.queueLoc, Option.map_none, reduceCtorEq, Option.map_some, Option.some.injEq] at hl
  exact ⟨_, _, rfl, hl.symm⟩

/-- **The queue operations are critical sections of the queue's mutex.** -/
theorem runtime_guarded_queue [DecidableEq T] (cl : Client T β es μ F) :
    Guarded (runtime cl) Mtx.queue TLoc.inQueue where
  lock {l} h := by
    obtain ⟨q, f, rfl, hp⟩ := queue_of_call h rfl
    rintro ⟨q', f', e, hn⟩
    cases e
    exact hn hp
  unlock {l} h := by
    obtain ⟨q, f, rfl, hp⟩ := queue_of_call h rfl
    exact ⟨q, f, rfl, by simp [hp]⟩
  wait {l c m} h := by
    obtain ⟨q, f, rfl, hp⟩ := queue_of_call h rfl
    have hm : q.prim.call (T := T) (E := Sys) = .cndWait c m := h
    rw [hp] at hm
    cases hm
    exact ⟨fun _ => rfl, fun _ => ⟨q, f, rfl, by simp [hp]⟩⟩
  absent {l} h := by
    rintro ⟨q, f, rfl, -⟩
    have hl := onQueue_runtime cl (.queue q f)
    rw [h] at hl
    cases hl
  locked {l} t x h := by
    obtain ⟨q, f, rfl, hp⟩ := queue_of_call h rfl
    obtain ⟨l', q', e, hl'⟩ := next_lock (V := Val) x.queue hp
    simp only [runtime, TLoc.next, e]
    exact ⟨l', f, rfl, hl'⟩
  unlocked {l} t x h := by
    obtain ⟨q, f, rfl, hp⟩ := queue_of_call h rfl
    obtain ⟨b, e⟩ := next_unlock (q := x.queue) hp (.ok : Ret Val)
    simp only [runtime, TLoc.next, e]
    exact not_inQueue_enter _
  keep {l} t r x hl hu _ := by
    cases hql : l.queueLoc with
    | none =>
      refine iff_of_false (next_outside cl hql t r x).2 ?_
      rintro ⟨q, f, rfl, -⟩
      cases hql
    | some q =>
      cases l with
      | queue q f =>
        have h1 : q.prim ≠ .lock := fun e => hl (by simp [runtime, TLoc.call, e, Prim.call])
        have h2 : q.prim ≠ .unlock := fun e => hu (by simp [runtime, TLoc.call, e, Prim.call])
        obtain ⟨l', q', e, hl'⟩ := next_inside x.queue h2 h1 r
        simp only [runtime, TLoc.next, e]
        exact ⟨fun _ => ⟨q, f, rfl, h1⟩, fun _ => ⟨l', f, rfl, hl'⟩⟩
      | _ => cases hql
  entry t := not_inQueue_enter _

/-! ## The refinement -/

/-- What the queue's critical sections see of a process. -/
def monitor (s : PState T β es μ F) : Monitor T β es where
  holder := (s.owner .queue).bind fun t => (s.loc t).queueLoc
  asleep := s.asleep
  woken := s.woken
  queue := s.mem.queue

section

variable {cl : Client T β es μ F} {s s' : PState T β es μ F} {t : T}

theorem monitor_eq {v : Monitor T β es} (hh : (s.owner .queue).bind (fun t => (s.loc t).queueLoc) = v.holder)
    (ha : s.asleep = v.asleep) (hw : s.woken = v.woken) (hq : s.mem.queue = v.queue) : monitor s = v := by
  cases v
  simp only [monitor] at *
  rw [hh, ha, hw, hq]

theorem wait_of_call {c : Cv} {m : Mtx} (h : (runtime cl).call (s.loc t) = .cndWait c m) :
    ∃ l f, s.loc t = .queue l f ∧ l.prim = .wait c ∧ m = .queue := by
  obtain ⟨l, f, hl, hp⟩ := queue_of_call h rfl
  refine ⟨l, f, hl, hp, ?_⟩
  rw [hl] at h
  have hm : l.prim.call (T := T) (E := Sys) = .cndWait c m := h
  rw [hp] at hm
  cases hm
  rfl

theorem queueLoc_of_call {c : Call T Mtx Cv Sys} (h : (runtime cl).call (s.loc t) = c) (hp : onQueue c = none) :
    (s.loc t).queueLoc = none := by
  have := onQueue_runtime cl (s.loc t)
  rw [h, hp] at this
  exact Option.map_eq_none_iff.mp this.symm

variable [DecidableEq T]

/-- The thread inside moves on inside. -/
theorem monitor_advance_in {r : Ret Val} {l l' : QLoc β es} {f : F} {q : Queue β} (hl : s.loc t = .queue l f)
    (he : l.next s.mem.queue r = (.inl l', q)) (ho : s.owner .queue = some t) :
    monitor ((runtime cl).advance s t r) = { monitor s with holder := some l', queue := q } := by
  have hn : (runtime cl).next t (s.loc t) r s.mem = (.queue l' f, { s.mem with queue := q }) := by
    simp only [runtime, TLoc.next, hl, he]
  refine monitor_eq ?_ rfl rfl ?_
  · rw [advance_owner, ho, Option.bind_some, advance_loc_self, hn]
    rfl
  · rw [advance_mem, hn]

/-- The thread inside has left. -/
theorem monitor_advance_out {r : Ret Val} {l : QLoc β es} {f : F} (hl : s.loc t = .queue l f) (hp : l.prim = .unlock)
    (ho : s.owner .queue = none) : monitor ((runtime cl).advance s t r) = { monitor s with holder := none } := by
  obtain ⟨b, he⟩ := next_unlock (q := s.mem.queue) hp r
  refine monitor_eq (by simp [ho]) rfl rfl ?_
  rw [advance_mem]
  simp only [runtime, TLoc.next, hl, he, Client.resume]
  rfl

/-- A thread outside the queue moves. -/
theorem monitor_advance_outside (hM : Mutual .queue TLoc.inQueue s) {s0 : PState T β es μ F} {r : Ret Val}
    (hl : s0.loc t = s.loc t) (hn : (s.loc t).queueLoc = none) (hloc : ∀ u, s.owner .queue = some u → s0.loc u = s.loc u)
    (ho : s0.owner .queue = s.owner .queue) (ha : s0.asleep = s.asleep) (hw : s0.woken = s.woken)
    (hm : s0.mem = s.mem) : monitor ((runtime cl).advance s0 t r) = monitor s := by
  refine monitor_eq ?_ ha hw ?_
  · rw [advance_owner, ho]
    cases hu : s.owner .queue with
    | none => simp [monitor, hu]
    | some u =>
      have hut : u ≠ t := by
        rintro rfl
        obtain ⟨q, f, e, -⟩ := ((hM u).mp hu).1
        rw [e] at hn
        cases hn
      simp only [monitor, hu, Option.bind_some, advance_loc_of_ne hut, hloc u hu]
  · rw [advance_mem, hl, hm]
    exact (next_outside cl hn t r _).1

/-- **A step of the process is a step of its queue, or does not touch it.** -/
theorem monitor_step (hW : Waits (runtime cl) s) (hM : Mutual .queue TLoc.inQueue s) {a : Act T Val}
    (hs : Trans (runtime cl) s a s') (hok : (runtime cl).syncOk s a = true) :
    monitor s' = monitor s ∨ (monitor s).Step (monitor s') := by
  have hfail : ∀ {t : T}, (runtime cl).syncOk s (.ret t (.fail : Ret Val)) = true →
      ∃ e, (runtime cl).call (s.loc t) = .ext e := Code.ext_of_syncOk
  -- the thread at a call inside the critical section owns the mutex
  have howner : ∀ {t : T} {l : QLoc β es} {f : F}, s.loc t = .queue l f → l.prim ≠ .lock → (∀ c, l.prim ≠ .wait c) →
      s.owner .queue = some t := fun {t l f} hl h1 h2 => by
    refine (hM t).mpr ⟨⟨l, f, hl, h1⟩, hW.awake fun c m e => ?_⟩
    obtain ⟨l', f', hl', hp⟩ := queue_of_call e rfl
    rw [hl] at hl'
    cases hl'
    exact h2 c hp
  have hholder : ∀ {t : T} {l : QLoc β es} {f : F}, s.loc t = .queue l f → s.owner .queue = some t →
      (monitor s).holder = some l := fun hl ho => by simp [monitor, ho, hl, TLoc.queueLoc]
  cases hs with
  | @lock t m hc ho =>
    cases m with
    | stdout =>
      left
      exact monitor_advance_outside hM rfl (queueLoc_of_call hc rfl) (fun _ _ => rfl)
        (setOwner_owner_of_ne _ (by simp)) rfl rfl rfl
    | queue =>
      right
      obtain ⟨l, f, hl, hp⟩ := queue_of_call hc rfl
      obtain ⟨l', q', he, -⟩ := next_lock (V := Val) s.mem.queue hp
      rw [monitor_advance_in (s := s.setOwner .queue (some t)) hl he (by simp)]
      exact .acquire (v := monitor s) hp (by simp [monitor, ho]) (next_ok_inl he)
  | @unlock t m hc ho =>
    cases m with
    | stdout =>
      left
      exact monitor_advance_outside hM rfl (queueLoc_of_call hc rfl) (fun _ _ => rfl)
        (setOwner_owner_of_ne _ (by simp)) rfl rfl rfl
    | queue =>
      right
      obtain ⟨l, f, hl, hp⟩ := queue_of_call hc rfl
      rw [monitor_advance_out (s := s.setOwner .queue none) hl hp (by simp)]
      exact .release (v := monitor s) hp (hholder hl ho)
  | @sleep t c m hc ho ha hw =>
    right
    obtain ⟨l, f, hl, hp, rfl⟩ := wait_of_call hc
    have : monitor ((s.setOwner .queue none).setAsleep c (insert t (s.asleep c))) =
        { monitor s with holder := none, asleep := Function.update s.asleep c (insert t (s.asleep c)) } :=
      monitor_eq (by simp) rfl rfl rfl
    rw [this]
    exact .sleep (v := monitor s) hp (hholder hl ho)
  | @reacquire t c m r hc hw ho hr =>
    right
    obtain ⟨l, f, hl, hp, rfl⟩ := wait_of_call hc
    have hr' : r = .ok := by
      rcases hr with rfl | ⟨rfl, -⟩
      · rfl
      · obtain ⟨e, he⟩ := hfail hok
        rw [hc] at he
        cases he
    subst hr'
    obtain ⟨l', q', he, -⟩ := next_inside (V := Val) (l := l) s.mem.queue (by simp [hp]) (by simp [hp]) .ok
    rw [monitor_advance_in (s := (s.setWoken c ((s.woken c).erase t)).setOwner .queue (some t)) hl he (by simp)]
    exact .reacquire (v := monitor s) hp (by simp [monitor, ho]) hw (next_ok_inl he)
  | waitFail hc _ _ =>
    obtain ⟨e, he⟩ := hfail hok
    rw [hc] at he
    cases he
  | @signal t u c hc hu =>
    right
    obtain ⟨l, f, hl, hp⟩ := queue_of_call hc rfl
    have ho := howner hl (by simp [hp]) (by simp [hp])
    obtain ⟨l', he⟩ := next_wake (V := Val) s.mem.queue (.inl hp)
    rw [monitor_advance_in (s := s.rouse c u) hl he ho]
    exact .signal (v := monitor s) hp (hholder hl ho) (next_ok_inl he) hu (hW.apart c u hu)
  | @signalNone t c hc hu =>
    right
    obtain ⟨l, f, hl, hp⟩ := queue_of_call hc rfl
    have ho := howner hl (by simp [hp]) (by simp [hp])
    obtain ⟨l', he⟩ := next_wake (V := Val) s.mem.queue (.inl hp)
    rw [monitor_advance_in hl he ho]
    exact .signalNone (v := monitor s) hp (hholder hl ho) (next_ok_inl he) hu
  | @broadcast t c hc =>
    right
    obtain ⟨l, f, hl, hp⟩ := queue_of_call hc rfl
    have ho := howner hl (by simp [hp]) (by simp [hp])
    obtain ⟨l', he⟩ := next_wake (V := Val) s.mem.queue (.inr hp)
    rw [monitor_advance_in (s := (s.setWoken c (s.woken c ∪ s.asleep c)).setAsleep c ∅) hl he ho]
    exact .broadcast (v := monitor s) hp (hholder hl ho) (next_ok_inl he)
  | @create t u hc hu =>
    left
    have hut : t ≠ u := by
      rintro rfl
      rw [hc] at hu
      cases hu
    refine monitor_advance_outside hM (by simp [hut]) (queueLoc_of_call hc rfl) (fun v hv => ?_) rfl rfl rfl rfl
    have hvu : v ≠ u := by
      rintro rfl
      exact (runtime_guarded_queue cl).absent hu ((hM v).mp hv).1
    simp [hvu]
  | join hc _ =>
    left
    exact monitor_advance_outside hM rfl (queueLoc_of_call hc rfl) (fun _ _ => rfl) rfl rfl rfl rfl
  | ext hc =>
    left
    exact monitor_advance_outside hM rfl (queueLoc_of_call hc rfl) (fun _ _ => rfl) rfl rfl rfl rfl
  | fail hc =>
    obtain ⟨e, he⟩ := hfail hok
    rw [he] at hc
    cases hc
  | @spurious u c m hc hu =>
    right
    exact .spurious (v := monitor s) hu (hW.apart c u hu)

/-- What holds of the queue of a process. -/
structure QueueInv (cl : Client T β es μ F) (s : PState T β es μ F) : Prop where
  waits : Waits (runtime cl) s
  mutex : Mutual .queue TLoc.inQueue s
  inv : (monitor s).Inv

theorem next_capacity {V : Type} (q : Queue β) (l : QLoc β es) (r : Ret V) :
    (l.next q r).2.capacity = q.capacity := by
  have hpush : ∀ x : Elem β es, (q.pushTest x).2.capacity = q.capacity := fun x => by
    unfold Queue.pushTest
    split <;> rfl
  have hpop : (q.popTest : QLoc β es × Queue β).2.capacity = q.capacity := by
    unfold Queue.popTest
    split
    · split <;> rfl
    · rfl
  cases l <;> cases r <;> first | rfl | exact hpush _ | exact hpop

omit [DecidableEq T] in
/-- The capacity of the queue never changes. -/
theorem runtime_capacity (l : TLoc β es F) (r : Ret Val) (x : Mem β μ) :
    ((runtime cl).next t l r x).2.queue.capacity = x.queue.capacity := by
  cases hl : l.queueLoc with
  | none => rw [(next_outside cl hl t r x).1]
  | some q =>
    cases l with
    | queue q f =>
      have := next_capacity x.queue q r
      simp only [runtime, TLoc.next]
      split <;> rename_i e <;> rw [e] at this <;> exact this
    | _ => cases hl

theorem step_capacity {a : Act T Val} (hs : (runtime cl).step s a = some s') :
    s'.mem.queue.capacity = s.mem.queue.capacity := by
  cases (Code.trans_of_step hs).move with
  | stay _ _ hm => rw [hm]
  | call t r _ _ _ _ hm => rw [hm, runtime_capacity]
  | create t u _ _ _ _ hm => rw [hm, runtime_capacity]

/-- **The invariant of the queue is kept by every step in which no synchronisation call fails.** -/
theorem QueueInv.step (h : QueueInv cl s) {a : Act T Val} (hs : (runtime cl).step s a = some s')
    (hok : (runtime cl).syncOk s a = true) : QueueInv cl s' := by
  have ht := Code.trans_of_step hs
  refine ⟨h.waits.step ht, (runtime_guarded_queue cl).mutual h.waits h.mutex ht hok, ?_⟩
  rcases monitor_step h.waits h.mutex ht hok with e | hm
  · rw [e]
    exact h.inv
  · exact h.inv.step hm

omit [DecidableEq T] in
/-- A process whose threads are all outside its queue, the queue as `mr_queue_init` leaves it. -/
theorem queueInv_init {block : List β} {capacity : Nat} (hw : capacity * es < sizeT)
    (hb : block.length = allocSize capacity es) (hl : ∀ t, (s.loc t).queueLoc = none) (ho : s.owner .queue = none)
    (ha : ∀ c, s.asleep c = ∅) (hwk : ∀ c, s.woken c = ∅) (hq : s.mem.queue = mrQueueInit block capacity es) :
    QueueInv cl s where
  waits := ⟨fun c t h => by simp [ha, hwk] at h, fun c t h => by simp [ha] at h⟩
  mutex t := by
    refine iff_of_false (by simp [ho]) fun h => ?_
    obtain ⟨⟨q, f, e, -⟩, -⟩ := h
    have := hl t
    rw [e] at this
    cases this
  inv := {
    wf := by rw [monitor, hq]; exact Queue.mrQueueInit_wf hw hb
    elementSize := by rw [monitor, hq]; rfl
    pre := fun l h => by simp [monitor, ho] at h
    empty := fun h => by simp [monitor, ha] at h
    open_ := fun h => by simp [monitor, ha] at h
    full := fun h => by simp [monitor, ha] at h }

end

end MrLib
