import MrLib.Process.Controller
import MrLib.Process.Simulation

/-!
# Processes that have ended

Where an element of the queue can be lost: a push that fails (`PushFails`), a pop that fails after it has taken an element
(`PopSlips`), and elements left in the queue when every worker has ended (`Abandoned`).

`count_of_done`: a process that ends as it should, and whose workers never abandon an element, leaves none in its queue.
`Pooled.served` is what the ledger of the pool says then.
-/

namespace MrLib

open Conc Conc.WorkPool

variable {ω Φ : Type} {C : ProcessCode ω Φ} {P : Spec} {job : Heap ω → ω → Sys} {K : Contract C P job}
  {s s' : PoolState ω Φ} {g : State ω} {a : Act Tid Val}

/-- A call of `mr_queue_push` that may fail. -/
def QLoc.pushing {β : Type} {es : Nat} : QLoc β es → Bool
  | .pushLock _ | .pushWait _ | .pushSignal | .pushUnlock => true
  | _ => false

/-- A call of `mr_queue_pop` that may fail when an element is off the stack. -/
def QLoc.taken {β : Type} {es : Nat} : QLoc β es → Bool
  | .popSignal _ | .popUnlock _ => true
  | _ => false

/-- A call in a push of the controller fails. -/
def PushFails (s : PoolState ω Φ) (a : Act Tid Val) : Prop :=
  a = .ret .controller .fail ∧ ∃ q f, s.loc .controller = .queue q f ∧ q.pushing = true

/-- A call in a pop fails when an element is off the stack. -/
def PopSlips (s : PoolState ω Φ) (a : Act Tid Val) : Prop :=
  ∃ i q f, a = .ret (.worker i) .fail ∧ s.loc (.worker i) = .queue q f ∧ q.taken = true

/-- A call of a worker in a pop fails, or in a log. -/
def Stumbles (s : PoolState ω Φ) (a : Act Tid Val) : Prop :=
  ∃ i, (a = .ret (.worker i) .fail ∧ ∃ q f, s.loc (.worker i) = .queue q f) ∨
    ∃ l f r, s.loc (.worker i) = .log l f ∧ a = .ret (.worker i) r ∧ l.next r = .inr (-1)

/-- Every worker has ended, and there are elements in the queue. -/
def Abandoned (workers : Nat) (s : PoolState ω Φ) : Prop :=
  (∀ i < workers, ∃ c, s.loc (.worker i) = .done c) ∧ 0 < s.mem.queue.count

/-- No call of the queue fails. -/
def queueOk (s : PoolState ω Φ) : Act Tid Val → Bool
  | .ret t .fail =>
    match s.loc t with
    | .queue _ _ => false
    | _ => true
  | _ => true

/-- No call of the queue fails, and there is a worker that has not ended or nothing in the queue. -/
def ProcessCode.keeps (C : ProcessCode ω Φ) (workers : Nat) (s : Hosted ω Φ) (a : Act Tid Val) : Bool :=
  queueOk s.threads a && (s.threads.mem.queue.count == 0 ||
    (List.range workers).any fun i => ((runtime C.client).call (s.threads.loc (.worker i))).code?.isNone)

theorem ProcessCode.not_lost_of_keeps {workers : Nat} {s : Hosted ω Φ} (h : C.keeps workers s a = true) :
    ¬ PushFails s.threads a ∧ ¬ PopSlips s.threads a ∧ ¬ Abandoned workers s.threads := by
  simp only [keeps, Bool.and_eq_true, Bool.or_eq_true, beq_iff_eq, List.any_eq_true, List.mem_range] at h
  obtain ⟨ha, h⟩ := h
  refine ⟨?_, ?_, ?_⟩
  · rintro ⟨rfl, q, f, hl, -⟩
    simp [queueOk, hl] at ha
  · rintro ⟨i, q, f, rfl, hl, -⟩
    simp [queueOk, hl] at ha
  · rintro ⟨hdone, hcount⟩
    rcases h with h | ⟨i, hi, hnone⟩
    · omega
    · obtain ⟨c, hc⟩ := hdone i hi
      rw [hc] at hnone
      cases hnone

theorem Blame.pushFails {f : Fault} (h : Blame s a f) (hf : f = .refused ∨ f = .burnt) : PushFails s a := by
  rcases hf with rfl | rfl
  · obtain ⟨ha, y, f, hl | hl⟩ := h
    · exact ⟨ha, _, f, hl, rfl⟩
    · exact ⟨ha, _, f, hl, rfl⟩
  · obtain ⟨ha, f, hl | hl⟩ := h
    · exact ⟨ha, _, f, hl, rfl⟩
    · exact ⟨ha, _, f, hl, rfl⟩

theorem Blame.popSlips (h : Blame s a .lost) : PopSlips s a := by
  obtain ⟨i, ha, y, f, hl | hl⟩ := h
  · exact ⟨i, _, f, ha, hl, rfl⟩
  · exact ⟨i, _, f, ha, hl, rfl⟩

theorem PopSlips.stumbles (h : PopSlips s a) : Stumbles s a := by
  obtain ⟨i, q, f, ha, hl, -⟩ := h
  exact ⟨i, .inl ⟨ha, q, f, hl⟩⟩

theorem Blame.stumbles {f : Fault} (h : Blame s a f) (hf : f = .lost ∨ f = .crashed) : Stumbles s a := by
  rcases hf with rfl | rfl
  · exact PopSlips.stumbles (Blame.popSlips h)
  · obtain ⟨i, ⟨ha, f, hl | hl⟩ | hlog⟩ := h
    · exact ⟨i, .inl ⟨ha, _, f, hl⟩⟩
    · exact ⟨i, .inl ⟨ha, _, f, hl⟩⟩
    · exact ⟨i, .inr hlog⟩

/-! ## The end of a thread -/

/-- A queue operation does not change the queue in its last call. -/
theorem queue_of_return {β : Type} {es : Nat} {Q : Queue β} {q : QLoc β es} {r : Ret Val} {b : QRet β} {Q' : Queue β}
    (h : q.next Q r = (.inr b, Q')) : Q' = Q := by
  cases q <;> cases r <;> simp_all [QLoc.next, Prod.map]

/-- Nor does a thread that ends. -/
theorem queue_of_end {cl : Client Tid (Option ω) 1 (Shared ω) (PFrame ω (Except Int Φ))} {t : Tid}
    {l : TLoc (Option ω) 1 (PFrame ω (Except Int Φ))} {r : Ret Val} {x : Mem (Option ω) (Shared ω)} {c : Int}
    (h : ((runtime cl).next t l r x).1 = .done c) : ((runtime cl).next t l r x).2.queue = x.queue := by
  simp only [runtime] at h ⊢
  cases l with
  | log l f => cases hn : l.next r <;> simp [TLoc.next, hn, Client.resume]
  | queue q f =>
    rcases hn : q.next x.queue r with ⟨q' | b, Q⟩
    · simp [TLoc.next, hn] at h
    · simp [TLoc.next, hn, Client.resume, queue_of_return hn]
  | emit m e f => rcases hn : e.next m x.stdout r with ⟨e' | n, o⟩ <;> simp [TLoc.next, hn, Client.resume]
  | _ => rfl

/-- A worker of a process that has created them all and joined them all has ended. -/
theorem Pooled.ended (h : Pooled K s g) (hj : ∀ i < P.workers, i ∈ g.ctl.joined) :
    ∀ i < P.workers, ∃ c, s.loc (.worker i) = .done c := fun i hi => h.joined i (hj i hi)

/-- Every thread has ended, or was never created. -/
def Over (s : PoolState ω Φ) : Prop := ∀ t, (∃ c, s.loc t = .done c) ∨ s.loc t = .absent

/-- A process that ends as it should has ended altogether. -/
theorem Pooled.over (h : Pooled K s g) (hret : Returned P g.ctl) {c : Int} (hd : s.loc .controller = .done c) :
    Over s := by
  intro t
  cases t with
  | controller => exact .inl ⟨c, hd⟩
  | worker i =>
    by_cases hi : i < P.workers
    · exact .inl (h.ended hret.joined i hi)
    · exact .inr (h.absent i (by rw [hret.created]; exact Nat.le_of_not_lt hi))

/-! ## The elements that have come -/

/-- What has come stays. -/
theorem born_ctlEnv {v v' : Ctl ω × Seen ω} {c : PCall ω} {r : PRet ω} (h : ctlEnv P v c r v') :
    v.1.born <+: v'.1.born := by
  cases c with
  | io c =>
    obtain ⟨-, rfl⟩ := h
    exact List.prefix_rfl
  | create i =>
    obtain ⟨-, -, -, ⟨-, rfl⟩ | ⟨-, rfl⟩⟩ := h <;> exact List.prefix_rfl
  | push x =>
    obtain ⟨-, -, -, rest, -, ⟨-, rfl⟩ | ⟨-, rfl⟩⟩ := h <;> exact List.prefix_rfl
  | close =>
    obtain ⟨-, rfl⟩ := h
    exact List.prefix_rfl
  | join i =>
    obtain ⟨-, rfl⟩ | ⟨-, rfl⟩ := h <;> exact List.prefix_rfl
  | load x =>
    obtain ⟨-, -, rfl⟩ := h
    exact List.prefix_rfl
  | share heap =>
    obtain ⟨-, -, rfl⟩ := h
    exact List.prefix_rfl
  | note e =>
    cases e with
    | came xs =>
      obtain ⟨-, rfl⟩ := h
      exact List.prefix_append _ _
    | pair token value =>
      obtain ⟨-, rfl⟩ := h
      exact List.prefix_rfl
    | released x =>
      obtain ⟨-, rest, -, rfl⟩ := h
      exact List.prefix_rfl
    | _ => exact h.elim
  | _ => exact h.elim

/-- A correct program has a run, and what has come is still there at its end. -/
theorem born_ends {α : Type} {Q : α → Ctl ω × Seen ω → Prop} {p : ThreadProg ω α} {v : Ctl ω × Seen ω}
    (h : p.Wp (ctlEnv P) Q v) : ∃ x v', Q x v' ∧ v.1.born <+: v'.1.born := by
  obtain ⟨v', x, hr, hq⟩ := h.ends
  refine ⟨x, v', hq, ?_⟩
  clear hq h
  induction hr with
  | ret => exact List.prefix_rfl
  | call he _ ih => exact (born_ctlEnv he).trans ih

/-- **What has come is there** where the controller will be next. -/
theorem Pooled.born (h : Pooled K s g) : ∃ x v', Ends K.ctlPhase K.ctlExit x v' ∧ g.ctl.born <+: v'.1.born := by
  have hat := h.ctl
  cases hl : s.loc .controller with
  | absent | emit =>
    rw [hl] at hat
    exact hat.elim
  | done c =>
    rw [hl] at hat
    exact ⟨.error c, _, hat.2, List.prefix_rfl⟩
  | log l f =>
    rw [hl] at hat
    exact born_ends hat.2.2
  | own f =>
    rw [hl] at hat
    obtain ⟨-, ⟨-, p, hp⟩ | ⟨hp, -⟩⟩ := hat
    · exact born_ends hp
    · exact born_ends hp
  | queue q f =>
    rw [hl] at hat
    cases q with
    | pushLock y | pushWait y =>
      obtain ⟨x, -, -, -, hp⟩ := hat
      exact born_ends hp
    | pushSignal | pushUnlock =>
      obtain ⟨x, -, -, hp⟩ := hat
      exact born_ends hp
    | pushFailed =>
      obtain ⟨-, x, c, -, hv, hp⟩ := hat
      have hc : g.ctl = { c with refused := true } := hv
      rw [hc]
      exact born_ends hp
    | closeLock | closeBroadcast | closeUnlock | closeFailed =>
      obtain ⟨-, -, c, hv, hp⟩ := hat
      have hc : g.ctl = { c with shut := true } := hv
      rw [hc]
      exact born_ends hp
    | _ => exact hat.elim

/-! ## Runs without failures -/

/-- No call of `mr_log` has failed. -/
def LogsWell (s : PoolState ω Φ) : Prop := ∀ t f, s.loc t ≠ .log .postFailed f

theorem enter_not_postFailed (n : Next (Option ω) 1 (PFrame ω (Except Int Φ))) (f : PFrame ω (Except Int Φ)) :
    n.enter ≠ .log .postFailed f := by
  cases n <;> nofun

theorem next_not_postFailed {cl : Client Tid (Option ω) 1 (Shared ω) (PFrame ω (Except Int Φ))} {t : Tid}
    {l : TLoc (Option ω) 1 (PFrame ω (Except Int Φ))} {r : Ret Val} {x : Mem (Option ω) (Shared ω)} (hr : r ≠ .fail)
    (hl : ∀ f, l ≠ .log .postFailed f) (f : PFrame ω (Except Int Φ)) :
    ((runtime cl).next t l r x).1 ≠ .log .postFailed f := by
  simp only [runtime]
  cases l with
  | absent => exact fun h => by cases h
  | done c => exact fun h => by cases h
  | log l f' =>
    cases l <;> cases r <;> first
      | exact absurd rfl hr
      | exact absurd rfl (hl f')
      | exact enter_not_postFailed _ f
      | exact fun h => by cases h
  | queue q f' =>
    rcases hn : q.next x.queue r with ⟨q' | b, Q⟩
    · simp [TLoc.next, hn]
    · simp only [TLoc.next, hn]
      exact enter_not_postFailed _ f
  | emit m e f' =>
    rcases hn : e.next m x.stdout r with ⟨e' | n, o⟩
    · simp [TLoc.next, hn]
    · simp only [TLoc.next, hn]
      exact enter_not_postFailed _ f
  | own f' => exact enter_not_postFailed _ f

theorem LogsWell.step (h : LogsWell s) (hs : Trans (runtime C.client) s a s') (ha : a.ok = true) : LogsWell s' := by
  intro u f
  cases hs.move with
  | stay _ hl _ =>
    rw [hl]
    exact h u f
  | call t r _ har _ hl _ =>
    rw [hl]
    by_cases hu : u = t
    · subst hu
      rw [Function.update_self]
      exact next_not_postFailed (har.ne_fail ha) (h u) f
    · rw [Function.update_of_ne hu]
      exact h u f
  | create t v _ _ _ hl _ =>
    rw [hl]
    by_cases hu : u = t
    · subst hu
      rw [Function.update_self]
      exact next_not_postFailed (by nofun) (h u) f
    · rw [Function.update_of_ne hu]
      by_cases hv : u = v
      · subst hv
        rw [Function.update_self]
        exact enter_not_postFailed _ f
      · rw [Function.update_of_ne hv]
        exact h u f

/-- `mr_log` returns `-1` when its last call fails, or when one before has failed. -/
theorem log_failed {l : LogLoc} {r : Ret Val} (h : l.next r = .inr (-1)) : r = .fail ∨ l = .postFailed := by
  cases l <;> cases r <;> simp_all [LogLoc.next]

/-- Without a failing call nothing goes wrong in the pool. -/
theorem Blame.eq_none {f : Fault} (h : Blame s a f) (ha : a.ok = true) (hlog : LogsWell s) : f = .none := by
  cases f with
  | none => rfl
  | crashed =>
    obtain ⟨i, ⟨rfl, -⟩ | ⟨l, f, r, hl, rfl, hn⟩⟩ := h
    · cases ha
    · rcases log_failed hn with rfl | rfl
      · cases ha
      · exact absurd hl (hlog _ _)
  | refused =>
    obtain ⟨rfl, -⟩ := h
    cases ha
  | burnt =>
    obtain ⟨rfl, -⟩ := h
    cases ha
  | lost =>
    obtain ⟨i, rfl, -⟩ := h
    cases ha
  | createFailed =>
    obtain ⟨rfl, -⟩ := h
    cases ha
  | joinFailed =>
    obtain ⟨rfl, -⟩ := h
    cases ha

/-! ## The calls of the user's function -/

theorem callsOf_of_jobs {heap : Heap ω} {es : List (Tid × Event ω)} (h : ∀ t x e, (t, Event.called x e) ∈ es → e = job heap x) :
    callsOf es = (calledOf es).map (job heap) := by
  induction es with
  | nil => rfl
  | cons x es ih =>
    obtain ⟨t, e⟩ := x
    have hrest := ih fun t x e he => h t x e (List.mem_cons_of_mem _ he)
    cases e with
    | called x e =>
      obtain rfl := h t x e List.mem_cons_self
      exact congrArg (job heap x :: ·) hrest
    | _ => exact hrest

/-- **Everything that came was served**, exactly once, if no push has failed, and nothing is lost or left. -/
theorem Pooled.served (h : Pooled K s g) (hret : Returned P g.ctl) (hr : g.ctl.refused = false) (hl : g.lost = [])
    (h0 : s.mem.queue.count = 0) :
    (callsOf s.mem.user.events).Perm ((cameOf s.mem.user.events).map (job s.mem.user.heap)) := by
  have hs : g.stack = [] := List.length_eq_zero_iff.mp (h.queue.count.symm.trans h0)
  have hout : ∀ i < P.workers, (g.wk i).out = true := fun i hi => h.good.inv.joined i (hret.joined i hi)
  have hserved := h.good.ledger.served hout hr (hret.keeping hr) hret.held hs hl
  rw [h.good.synced.called, h.good.synced.born] at hserved
  rw [callsOf_of_jobs h.good.synced.jobs]
  exact hserved.map _

/-! ## The queue at the end -/

variable {args : PoolArgs} {stops : Bool} {size : Nat} {stdin : Bytes} {K : Contract C (args.spec stops) job}

/-- The elements that are in the queue of such a state. -/
theorem Pooled.left_of_abandoned {s : PoolState ω Φ} (h : Pooled K s g) (ha : Abandoned args.threads s) :
    g.stack ≠ [] ∧ ∀ i < args.threads, (g.wk i).out = true := by
  refine ⟨fun hnil => ?_, fun i hi => ?_⟩
  · have hcount := h.queue.count
    rw [hnil] at hcount
    exact absurd hcount ha.2.ne'
  · obtain ⟨c, hc⟩ := ha.1 i hi
    have hwi := h.wk i
    rw [hc] at hwi
    exact hwi

/-- **No worker has finished** when elements are abandoned: none has found the queue closed and empty. -/
theorem abandoned_unfinished (K : Contract C (args.spec stops) job) {Cond : Hosted ω Φ → Act Tid Val → Prop}
    {s : Hosted ω Φ} (h : Reach (C.system args size stdin) Cond s) (ha : Abandoned args.threads s.threads) (i : Nat) :
    (.worker i, .left 1) ∉ s.threads.mem.user.events := by
  obtain ⟨-, g, -, -, hp⟩ := pooled_of_reach K (F := fun _ => True) trivial (fun _ _ _ _ _ => trivial) h
  intro hleft
  have hdrained := hp.good.synced.left i hleft
  exact (hp.left_of_abandoned ha).1 (hp.good.inv.drained i (.inr hdrained)).2

/-- **How elements come to be abandoned**: unless a worker's pop or log has failed, every worker has ended because the user's
function had failed for it. -/
theorem abandoned_failed (K : Contract C (args.spec stops) job) {s : Hosted ω Φ}
    (h : Reach (C.system args size stdin) (fun s a => ¬ Stumbles s.threads a) s) (ha : Abandoned args.threads s.threads) :
    stops = true ∧ (failedOf s.threads.mem.user.events).length = args.threads := by
  obtain ⟨fs, g, hs, hfs, hp⟩ := pooled_of_reach K (F := fun f => f ≠ .lost ∧ f ≠ .crashed) (by simp)
    (fun s a f hc hb => ⟨fun e => hc (hb.stumbles (.inl e)), fun e => hc (hb.stumbles (.inr e))⟩) h
  obtain ⟨hne, hout⟩ := hp.left_of_abandoned ha
  have hstopped := stopped_of_left hs hfs hp.good.inv hp.good.faults args.threads_pos hout hne
  exact ⟨hstopped.1, by rw [← hp.good.synced.failed]; exact hstopped.2⟩

/-- **Nothing is left in the queue** of a process that has returned 0, if its workers never abandon an element. -/
theorem count_of_done {Cond : Hosted ω Φ → Act Tid Val → Prop} (hexit : ∀ v, K.ctlExit 0 v → Returned (args.spec stops) v.1)
    (hC : ∀ s a, Cond s a → ¬ Abandoned args.threads s.threads) {s : Hosted ω Φ}
    (h : Reach (C.system args size stdin) Cond s) (hd : s.threads.loc .controller = .done 0) :
    s.threads.mem.queue.count = 0 := by
  induction h with
  | init => rfl
  | @step s s' a hr hc he ih =>
    obtain ⟨-, g, -, -, hp⟩ := pooled_of_reach K (F := fun _ => True) trivial (fun _ _ _ _ _ => trivial) hr
    obtain ⟨-, g', -, -, hp'⟩ :=
      pooled_of_reach K (F := fun _ => True) trivial (fun _ _ _ _ _ => trivial) (hr.step hc he)
    obtain ⟨htr, hleg⟩ := ProcessCode.step_spec he
    have complete : ∀ {s : Hosted ω Φ} {g : State ω}, Pooled K s.threads g → s.threads.loc .controller = .done 0 →
        Returned (args.spec stops) g.ctl := by
      intro s g hp hd
      have hat := hp.ctl
      rw [hd] at hat
      exact hexit _ hat.2
    cases htr.move with
    | stay ha hl hm =>
      rw [hm]
      exact ih (by rw [← hl]; exact hd)
    | call t r hans ha hx hl hm =>
      cases t with
      | worker i =>
        have hd0 : s.threads.loc .controller = .done 0 := by
          rw [hl, Function.update_of_ne (by simp : Tid.controller ≠ .worker i)] at hd
          exact hd
        -- the workers have ended, and make no step
        have hcomp := complete hp hd0
        rw [Code.Answers] at hans
        by_cases hi : i < args.threads
        · obtain ⟨c, hi⟩ := hp.ended hcomp.joined i hi
          rw [hi] at hans
          exact hans.elim
        · rw [hp.absent i (by rw [hcomp.created]; exact Nat.le_of_not_lt hi)] at hans
          exact hans.elim
      | controller =>
        have hcomp := complete hp' hd
        rw [hl, Function.update_self] at hd
        rw [hm, queue_of_end hd]
        have hall : ∀ i < args.threads, ∃ c, s.threads.loc (.worker i) = .done c := by
          intro i hi
          have hend := hp'.ended hcomp.joined i hi
          rwa [hl, Function.update_of_ne (by simp : Tid.worker i ≠ .controller)] at hend
        by_contra hne
        exact hC _ _ hc ⟨hall, Nat.pos_of_ne_zero hne⟩
    | create t u ha hcall hu hl hm =>
      -- the worker that has just been created has not ended
      obtain ⟨f, rfl, rfl, -, hcf, -, hpf⟩ := hp.creates hcall
      obtain ⟨-, hlt, -⟩ := (hcf ▸ hpf.1 : ∃ r v', ctlEnv _ _ (.create g.ctl.created) r v').choose_spec.choose_spec
      obtain ⟨c, hend⟩ := hp'.ended (complete hp' hd).joined _ hlt
      rw [hl, Function.update_of_ne (by simp : Tid.worker g.ctl.created ≠ .controller), Function.update_self] at hend
      have hentry := entry_wk K g.ctl.created s.threads.mem.user.heap
      rw [hend] at hentry
      cases hentry

/-- **A run in which no call fails** is a run of the pool in which nothing goes wrong. -/
theorem pooled_of_ok (K : Contract C (args.spec stops) job) {s : Hosted ω Φ}
    (h : Reach (C.system args size stdin) (fun _ a => a.ok = true) s) :
    ∃ fs g, Steps (args.spec stops) State.start fs g ∧ (∀ f ∈ fs, f = .none) ∧ Pooled K s.threads g := by
  have hlog : ∀ s, Reach (C.system args size stdin) (fun _ a => a.ok = true) s → LogsWell s.threads := by
    intro s hr
    refine hr.inv (I := fun s => LogsWell s.threads) ?_ fun s a s' hi ha he => hi.step (ProcessCode.step_spec he).1 ha
    rintro (_ | i) f
    · exact enter_not_postFailed _ f
    · nofun
  exact pooled_of_reach K rfl (fun s a f hc hb => hb.eq_none hc.1 hc.2) (h.assume hlog)

end MrLib
