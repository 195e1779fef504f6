import MrLib.Core.Exact
import MrLib.Core.Safe
import MrLib.Process.Calls

/-!
# Who returns from `mr_start`

A `fork` that returns 0 has returned in a child. `Self` is what a process that runs the code of `mr_start` is: the one
that was called, or a child, with the calls it has made since then (`selfEnv`).

`only_caller_returns`: as long as the `mr_log_info` that a child begins with does not fail, the child runs nothing of its
parent's cleanup and leaves by `_exit`; if it fails, the child returns from `mr_start`. The call of a process main is one
call here; the processes that it stands for call nothing of the cleanup either (`serving_of_reach`).
-/

namespace MrLib

open Conc Prog

/-- A process that runs the code of `mr_start`. -/
structure Self where
  /-- The child it is, if it is one. -/
  child : Option Proc
  /-- The calls of the child. -/
  calls : Trace

/-- The process that called `mr_start`. -/
def Self.caller : Self := ⟨none, []⟩

/-- The process after a call. -/
def Self.post (s : Self) (c : Io) (r : IoRet) : Self :=
  match s.child with
  | some _ => { s with calls := s.calls ++ [(c, r)] }
  | none =>
    match c, r with
    | .sys (.fork child), .sys (.val (.pid 0)) => ⟨some child, []⟩
    | _, _ => s

/-- Every answer is possible. -/
def selfEnv (ends : Nat → Status) (s : Self) (c : Io) (r : IoRet) (s' : Self) : Prop :=
  answers ends c r = true ∧ s' = s.post c r

/-- The first call of the child, its `mr_log_info`, has failed. -/
def Self.logFailed (s : Self) : Bool :=
  match s.calls with
  | (.log _ _, .int r) :: _ => r = -1
  | _ => false

/-- The calls of the parent's cleanup: `kill`, `waitpid`, and those of `mr_log_destroy`. -/
def Io.cleanup : Io → Bool
  | .sys (.kill _) | .sys (.waitpid _) | .sys (.fclose .log) | .sys .semClose | .sys .semUnlink => true
  | _ => false

/-- A child has called nothing of its parent's cleanup, and has not returned. -/
structure Confined (s : Self) (p : IoProg (Except Leave MainPhase)) : Prop where
  cleanup : ∀ e ∈ s.calls, e.1.cleanup = false
  returned : ∀ r, p ≠ .ret (.error (.ret r))

variable {ends : Nat → Status} {α β : Type} {s : Self}

/-! ## A child -/

/-- The child has called nothing of the cleanup, unless its first call has failed. -/
def Self.Tidy (s : Self) : Prop := s.child.isSome = true → s.logFailed = false → ∀ e ∈ s.calls, e.1.cleanup = false

theorem post_child (hc : s.child.isSome = true) (c : Io) (r : IoRet) :
    s.post c r = { s with calls := s.calls ++ [(c, r)] } := by
  obtain ⟨child, hchild⟩ := Option.isSome_iff_exists.mp hc
  simp [Self.post, hchild]

/-- What the first call returned is settled. -/
theorem logFailed_post (hc : s.child.isSome = true) (hn : s.calls ≠ []) (c : Io) (r : IoRet) :
    (s.post c r).logFailed = s.logFailed := by
  rw [post_child hc]
  obtain ⟨⟨c', r'⟩, es, he⟩ := List.exists_cons_of_ne_nil hn
  simp only [Self.logFailed, he, List.cons_append]
  cases c' <;> cases r' <;> rfl

theorem calls_of_logFailed (hl : s.logFailed = true) : s.calls ≠ [] := by
  intro h
  simp [Self.logFailed, h] at hl

/-- A child whose first call has failed may do anything. -/
theorem safe_astray {p : IoProg α} {R : α → Prop} (hp : Calls (fun _ => True) R p) (hc : s.child.isSome = true)
    (hl : s.logFailed = true) :
    Safe (selfEnv ends) Self.Tidy p (fun x s' => R x ∧ s'.child.isSome = true ∧ s'.logFailed = true) s := by
  have hI : ∀ s : Self, s.logFailed = true → s.Tidy := by
    intro s hl _ hf
    rw [hl] at hf
    cases hf
  induction p generalizing s with
  | ret a => exact ⟨hI s hl, hp, hc, hl⟩
  | call c k ih =>
    refine ⟨hI s hl, fun r s' he => ?_⟩
    obtain ⟨-, rfl⟩ := he
    refine ih r (hp.2 r) ?_ ?_
    · rw [post_child hc]
      exact hc
    · rw [logFailed_post hc (calls_of_logFailed hl)]
      exact hl

/-- A child whose first call has not failed, in code that does not clean up. -/
theorem safe_tidy {p : IoProg α} {R : α → Prop} (hp : Calls (fun c => c.cleanup = false) R p)
    (hc : s.child.isSome = true) (hn : s.calls ≠ []) (hl : s.logFailed = false)
    (he : ∀ e ∈ s.calls, e.1.cleanup = false) :
    Safe (selfEnv ends) Self.Tidy p (fun x s' => R x ∧ s'.child.isSome = true ∧ s'.logFailed = false) s := by
  induction p generalizing s with
  | ret a => exact ⟨fun _ _ => he, hp, hc, hl⟩
  | call c k ih =>
    refine ⟨fun _ _ => he, fun r s' hs => ?_⟩
    obtain ⟨-, rfl⟩ := hs
    refine ih r (hp.2 r) ?_ ?_ ?_ ?_
    · rw [post_child hc]
      exact hc
    · rw [post_child hc]
      simp
    · rw [logFailed_post hc hn]
      exact hl
    · rw [post_child hc]
      intro e hm
      rcases List.mem_append.mp hm with hm | hm
      · exact he e hm
      · rw [List.mem_singleton.mp hm]
        exact hp.1

/-- A piece of a child that leaves by `_exit`. -/
def Exits (f : Fn α) : Prop :=
  Calls (fun c => c.cleanup = false) (fun x => ∃ l, x = .error l ∧ ∀ r, l ≠ .ret r) f.run

/-- A call that forks nothing. -/
def Forkless (c : Io) : Prop := ∀ child, c ≠ .sys (.fork child)

/-- How a child leaves. -/
def ChildLeaves (x : Except Leave Unit) (s : Self) : Prop :=
  s.child.isSome = true ∧
    (x = .error (.ret (-1)) ∧ s.logFailed = true ∨ (∃ l, x = .error l ∧ ∀ r, l ≠ .ret r) ∧ s.logFailed = false)

/-- **The code of a child**: its first call, and the rest. -/
theorem safe_child {child : Proc} {format : String} {command rest : Fn Unit} (hc : Goes Forkless command)
    (hr : Exits rest) :
    Safe (selfEnv ends) Self.Tidy (do syscallRetCheck (← mrLogInfo format) command; rest : Fn Unit).run ChildLeaves
      ⟨some child, []⟩ := by
  refine safe_lift ⟨fun _ _ => by simp, fun r s' he => ?_⟩
  obtain ⟨ha, rfl⟩ := he
  match r, ha with
  | .int r, ha =>
    have hI : Self.Tidy ⟨some child, [(.log .info format, .int r)]⟩ := by
      intro _ _ e he
      rw [List.mem_singleton.mp he]
      rfl
    refine ⟨hI, ?_⟩
    refine safe_test (fun hr1 => ?_) fun hr1 => ?_
    · have hl : Self.logFailed ⟨some child, [(.log .info format, .int r)]⟩ = true := by simp [Self.logFailed, hr1]
      refine (safe_astray (hc.mono fun _ _ => trivial) rfl hl).mono fun x s' _ hx => ?_
      obtain ⟨rfl, hc, hl⟩ := hx
      exact ⟨hc, .inl ⟨rfl, hl⟩⟩
    · have hl : Self.logFailed ⟨some child, [(.log .info format, .int r)]⟩ = false := by simp [Self.logFailed, hr1]
      refine (safe_tidy hr rfl (by simp) hl (by simp [Io.cleanup])).mono fun x s' _ hx => ?_
      exact ⟨hx.2.1, .inr ⟨hx.1, hx.2.2⟩⟩

theorem exits_throw {l : Leave} (hl : ∀ r, l ≠ .ret r) : Exits (throw l : Fn α) := ⟨l, rfl, hl⟩

theorem Exits.bind {f : Fn β} {k : β → Fn α} (hf : Exits f) : Exits (f >>= k) := by
  change Calls _ _ (f.run >>= _ : IoProg (Except Leave α))
  refine Calls.bind hf fun x hx => ?_
  obtain ⟨l, rfl, hl⟩ := hx
  exact ⟨l, rfl, hl⟩

theorem exits_lift {p : IoProg β} {k : β → Fn α} (hp : Calls (fun c => c.cleanup = false) Any p)
    (hk : ∀ b, Exits (k b)) : Exits (liftM p >>= k) := by
  change Calls _ _ ((p >>= fun b => Prog.ret (Except.ok b)) >>= _ : IoProg (Except Leave α))
  have hok : Calls (fun c => c.cleanup = false) (fun x => ∃ b, x = .ok b)
      (p >>= fun b => Prog.ret (Except.ok b) : IoProg (Except Leave β)) := hp.bind fun b _ => ⟨b, rfl⟩
  refine hok.bind fun x hx => ?_
  obtain ⟨b, rfl⟩ := hx
  exact hk b

/-- A checked call whose command leaves. -/
theorem exits_check {p : IoProg Int} {command rest : Fn Unit} (hp : Calls (fun c => c.cleanup = false) Any p)
    (hc : Exits command) (hr : Exits rest) : Exits (do syscallRetCheck (← p) command; rest : Fn Unit) := by
  refine exits_lift hp fun r => ?_
  unfold syscallRetCheck
  split
  · exact hc.bind.bind
  · exact hr

theorem calls_closeAll {P : Io → Prop} (hP : ∀ fd, P (.sys (.close fd))) : ∀ fds, Calls P Any (closeAll fds)
  | [] => trivial
  | fd :: fds => Calls.bind (calls_sysInt (hP fd)) fun _ _ => calls_closeAll hP fds

theorem exits_childFailed (format : String) (fds : List Nat) : Exits (childFailed format fds) :=
  exits_lift (calls_mrLogError rfl) fun _ => exits_lift (calls_closeAll (fun _ => rfl) _) fun _ => exits_throw nofun

/-- The call of the process main, and `_exit`. -/
theorem exits_processMain (child : Proc) : Exits (do
    let exitCode ← processMain child
    throw (.processMain child exitCode) : Fn α) := by
  have hc : Calls (fun c => c.cleanup = false) Any (sysCall (.processMain child)) := calls_sysCall rfl
  refine exits_lift (hc.bind fun r _ => ?_) fun _ => exits_throw nofun
  split <;> exact trivial

theorem goes_closeBoth (ps : List (Nat × Nat)) : Goes Forkless (liftM (closeBoth ps)) :=
  goes_lift (calls_closeAll (fun _ => nofun) _)

theorem safe_mapperChild (p : Pipes) :
    Safe (selfEnv ends) Self.Tidy (mapperChild p).run ChildLeaves ⟨some .mapper, []⟩ := by
  refine safe_child (goes_closeBoth _) ?_
  iterate 8 refine exits_check (calls_sysInt rfl) (exits_childFailed _ _) ?_
  exact exits_processMain _

theorem safe_reducerChild (p : Pipes) :
    Safe (selfEnv ends) Self.Tidy (reducerChild p).run ChildLeaves ⟨some .reducer, []⟩ := by
  refine safe_child (goes_closeBoth _) ?_
  iterate 8 refine exits_check (calls_sysInt rfl) (exits_childFailed _ _) ?_
  exact exits_processMain _

/-! ## The process that called `mr_start` -/

/-- A piece forks nothing. -/
abbrev Single (R : α → Prop) (f : Fn α) : Prop := Only Forkless R f

/-- How a piece that the caller began may end. -/
def Outcome (R : α → Prop) : Except Leave α → Self → Prop
  | .ok a, s => s = .caller ∧ R a
  | .error (.ret r), s => s = .caller ∨ s.child.isSome = true ∧ s.logFailed = true ∧ r = -1
  | .error _, s => s.child.isSome = true ∧ s.logFailed = false

/-- **The judgement about the caller.** -/
def Confines (R : α → Prop) (f : Fn α) : Prop :=
  ∀ ends, Safe (selfEnv ends) Self.Tidy f.run (Outcome R) .caller

section Rules

variable {R : α → Prop} {D : β → Prop} {f : Fn α} {command : Fn Unit}

theorem tidy_caller : Self.caller.Tidy := fun h => by cases h

/-- Code of the caller that forks nothing. -/
theorem safe_caller {p : IoProg β} {Q : β → Self → Prop} (hp : Calls Forkless D p)
    (hQ : ∀ x, D x → Q x .caller) : Safe (selfEnv ends) Self.Tidy p Q .caller := by
  refine Calls.safe (fun c r s' hc he => ?_) tidy_caller hp hQ
  obtain ⟨-, rfl⟩ := he
  unfold Self.post Self.caller
  dsimp only
  split
  · exact absurd rfl (hc _)
  · rfl

theorem Only.confines (hf : Single R f) : Confines R f := by
  intro ends
  refine safe_caller hf fun x hx => ?_
  cases x with
  | ok a => exact ⟨rfl, hx⟩
  | error l =>
    obtain ⟨r, rfl⟩ := hx
    exact .inl rfl

theorem Confines.bind {g : Fn β} {k : β → Fn α} (hg : Confines D g) (hk : ∀ b, D b → Confines R (k b)) :
    Confines R (g >>= k) := by
  intro ends
  refine safe_fn_bind ((hg ends).mono fun x s' _ hx => ?_)
  cases x with
  | ok b =>
    obtain ⟨rfl, hb⟩ := hx
    exact hk b hb ends
  | error l => cases l <;> exact hx

/-- A call of a function: a child that returns from it goes on with `-1`. -/
theorem Confines.within {rest : Int → Fn α} (hf : Confines R f) (hr : ∀ r, Confines R (rest r))
    (hret : Calls (fun _ => True) (fun x => x = .error (.ret (-1))) (rest (-1)).run) :
    Confines R (f.within rest) := by
  intro ends
  refine safe_within ((hf ends).mono fun x s' _ hx => ?_)
  rcases x with (r | c | ⟨child, c⟩) | a
  · rcases hx with rfl | ⟨hc, hl, rfl⟩
    · exact hr r ends
    · refine (safe_astray hret hc hl).mono fun x s'' _ hx => ?_
      obtain ⟨rfl, hc, hl⟩ := hx
      exact .inr ⟨hc, hl, rfl⟩
  · exact hx
  · exact hx
  · exact hx

theorem Confines.check (hf : Confines R f) (hc : Goes Forkless command) : Confines R (f.check command) := by
  intro ends
  refine safe_checked ((hf ends).mono fun x s' _ hx => ?_)
  rcases x with (r | c | ⟨child, c⟩) | a
  · rcases hx with rfl | ⟨hs, hl, rfl⟩
    · refine safe_caller hc fun x hx => ?_
      obtain rfl := hx
      exact .inl rfl
    · refine (safe_astray (hc.mono fun _ _ => trivial) hs hl).mono fun x s'' _ hx => ?_
      obtain ⟨rfl, hc, hl⟩ := hx
      exact .inr ⟨hc, hl, rfl⟩
  · exact hx
  · exact hx
  · exact hx

/-- A child is forked. -/
theorem confines_spawn {child : Proc} {format : String} {ps : List (Nat × Nat)} {code : Fn Unit}
    (hc : ∀ ends, Safe (selfEnv ends) Self.Tidy code.run ChildLeaves ⟨some child, []⟩) :
    Confines Any (spawnProcess child format ps code) := by
  intro ends
  refine safe_lift ⟨tidy_caller, fun r s' he => ?_⟩
  obtain ⟨hr, rfl⟩ := he
  match r, hr with
  | .sys .fail, _ =>
    have hf : Single Any (do mrLogError format; closeBoth ps; ret (-1) : Fn Nat) :=
      only_lift (calls_mrLogError nofun) fun _ => only_lift (calls_closeAll (fun _ => nofun) _) fun _ => only_ret _
    exact ⟨tidy_caller, hf.confines ends⟩
  | .sys (.val (.pid 0)), _ =>
    have hI : Self.Tidy ⟨some child, []⟩ := fun _ _ => by simp
    refine ⟨hI, safe_fn_bind ((hc ends).mono fun x s' _ hx => ?_)⟩
    obtain ⟨hs, ⟨rfl, hl⟩ | ⟨⟨l, rfl, hr⟩, hl⟩⟩ := hx
    · exact .inr ⟨hs, hl, rfl⟩
    · cases l with
      | ret r => exact absurd rfl (hr r)
      | exit c => exact ⟨hs, hl⟩
      | processMain child c => exact ⟨hs, hl⟩
  | .sys (.val (.pid (n + 1))), _ => exact ⟨tidy_caller, tidy_caller, rfl, trivial⟩

end Rules

/-! ## The code of the caller -/

section

variable {R : α → Prop}

/-- Transfers fork nothing. -/
theorem single_of_transfers {f : Fn α} (hf : Transfers R f) : Single Any f := by
  refine Calls.mono (fun c hc child he => ?_) (fun x hx => ?_) hf
  · rw [he] at hc
    cases hc
  · cases x with
    | ok a => exact trivial
    | error l => exact hx

theorem goes_error (format : String) : Goes Forkless (liftM (mrLogError format)) := goes_lift (calls_mrLogError nofun)

theorem goes_closeAll (fds : List Nat) : Goes Forkless (liftM (closeAll fds)) :=
  goes_lift (calls_closeAll (fun _ => nofun) _)

theorem goes_terminate (pids : List Nat) : Goes Forkless (liftM (terminate pids)) := by
  have kills : ∀ pids, Calls Forkless Any (terminate.killAll pids) := by
    intro pids
    induction pids with
    | nil => exact trivial
    | cons pid pids ih => exact Calls.bind (calls_sysCall nofun) fun _ _ => ih
  have waits : ∀ pids, Calls Forkless Any (terminate.waitAll pids) := by
    intro pids
    induction pids with
    | nil => exact trivial
    | cons pid pids ih => exact Calls.bind (calls_sysCall nofun) fun _ _ => ih
  exact goes_lift ((kills _).bind fun _ _ => waits _)

theorem calls_close (fd : Nat) : Calls Forkless Any (close fd) := calls_sysInt nofun

theorem single_mrLogInit (logFile : Bytes) : Single Any (mrLogInit logFile) := by
  refine only_check (calls_sysInt nofun) (only_pure trivial) ?_
  refine only_check (calls_sysInt nofun) ?_ (only_pure trivial)
  exact only_lift (calls_sysInt nofun) fun _ => only_pure trivial

theorem single_mrLogDestroy : Single Any mrLogDestroy := by
  have unlink : Single Any (do let _ ← sysInt .semUnlink : Fn Unit) :=
    only_lift (calls_sysInt nofun) fun _ => only_pure trivial
  refine only_check (calls_sysInt nofun) (only_lift (calls_sysInt nofun) fun _ => unlink) ?_
  refine only_check (calls_sysInt nofun) unlink ?_
  exact only_check (calls_sysInt nofun) (only_pure trivial) (only_pure trivial)

/-- `mr_log_destroy` as a command. -/
theorem goes_mrLogDestroy : Goes Forkless (do let _ ← mrLogDestroy.call) := by
  change Calls _ _ ((mrLogDestroy.run >>= _ : IoProg (Except Leave Int)) >>= _ : IoProg (Except Leave Unit))
  refine Calls.bind (Calls.bind single_mrLogDestroy fun x hx => ?_ : Calls _ (fun x => ∃ b, x = .ok b) _) ?_
  · cases x with
    | ok r => exact ⟨r, rfl⟩
    | error l =>
      obtain ⟨r, rfl⟩ := hx
      exact ⟨r, rfl⟩
  · intro x hx
    obtain ⟨b, rfl⟩ := hx
    exact rfl

theorem single_waitForProcess (pid : Nat) : Single Any (waitForProcess pid) := by
  refine only_lift (calls_sysCall nofun) fun r => ?_
  split
  · split <;> exact only_check (calls_mrLog nofun) (only_pure trivial) (only_pure trivial)
  · exact only_lift (calls_mrLogError nofun) fun _ => only_ret _

theorem single_receivedOutput (job : Job) (r : Int) : Single Any (receivedOutput job r) := by
  have hpids := goes_terminate [job.mapperPid, job.reducerPid]
  refine only_test ((goes_error _).seq (hpids.seq (goes_skip.ignore (calls_close _)))).only ?_
  refine only_check (calls_close _) ((goes_error _).seq hpids).only ?_
  refine (single_waitForProcess _).call fun r => only_test ((goes_error _).seq (goes_terminate _)).only ?_
  exact (single_waitForProcess _).call fun r => only_test (goes_error _).only (only_ret _)

theorem single_sentToMapper (job : Job) (r : Int) : Single Any (sentToMapper job r) := by
  have hpids := goes_terminate [job.mapperPid, job.reducerPid]
  refine only_test ((goes_error _).seq (hpids.seq (goes_closeAll _))).only ?_
  refine only_check (calls_close _) ((goes_error _).seq (hpids.seq (goes_skip.ignore (calls_close _)))).only ?_
  exact (single_of_transfers (transfers_receiveOutput job)).within (single_receivedOutput job)

theorem single_closeUnused (p : Pipes) (m r : Nat) : Single Any (closeUnused p m r) := by
  have h2 := goes_terminate [m, r]
  refine only_check (calls_close _) ((goes_terminate [m]).seq ((goes_closeBoth _).ignore (calls_close _))).only ?_
  refine only_check (calls_close _) (h2.seq ((goes_closeAll _).seq (goes_closeBoth _))).only ?_
  refine only_check (calls_close _) (h2.seq ((goes_closeBoth _).ignore (calls_close _))).only ?_
  refine only_check (calls_close _) (h2.seq ((goes_closeBoth _).ignore (calls_close _))).only ?_
  exact only_check_last (calls_mrLog nofun) (h2.seq (goes_closeAll _)).only

theorem single_pipe {id : PipeId} {command : Fn Unit} (hc : Goes Forkless command) : Single Any (pipe id command) := by
  refine only_lift (calls_sysCall nofun) fun r => ?_
  split
  · exact only_pure trivial
  · exact hc.only.bind fun _ _ => only_ret _

theorem single_spawned (r : Int) : Single Any (spawned r : Fn α) :=
  only_test goes_mrLogDestroy.only (single_mrLogDestroy.call fun _ => only_test (only_pure trivial) (only_ret _))

theorem single_ran (r : Int) : Single Any (ran r) := only_test (only_pure trivial) (only_ret _)

/-- **Every block of `mr_start`** forks nothing. -/
theorem single_mrStartBlock (ph : MainPhase) : Single Any (mrStartBlock ph) := by
  have callers : ∀ {f : Fn MainPhase}, Single Any f → Single Any (inSpawnProcesses f) := fun hf =>
    (hf.within single_spawned).within single_ran
  cases ph with
  | line job caller filePath =>
    have hs := single_of_transfers (transfers_caller (transfers_sendFileLoop job caller filePath) caller)
    exact callers (hs.within (single_sentToMapper job))
  | record job header =>
    exact callers ((single_of_transfers (transfers_receiveRecord job header)).within (single_receivedOutput job))

theorem confines_check {p : IoProg Int} {command : Fn Unit} {k : Fn α}
    (hp : Calls Forkless Any p) (hc : Goes Forkless command) (hk : Confines R k) :
    Confines R (do syscallRetCheck (← p) command; k : Fn α) := by
  intro ends
  refine safe_check (safe_caller hp fun r _ => ⟨fun _ => safe_caller hc fun x hx => ?_, fun _ => hk ends⟩)
  obtain rfl := hx
  exact .inl rfl

theorem confines_test {r : Int} {command : Fn Unit} {k : Fn α} (hc : Goes Forkless command) (hk : Confines R k) :
    Confines R (do syscallRetCheck r command; k : Fn α) := by
  intro ends
  refine safe_test (fun _ => safe_caller hc fun x hx => ?_) fun _ => hk ends
  obtain rfl := hx
  exact .inl rfl

theorem confines_call {f : Fn Int} {k : Int → Fn α} (hf : Single Any f) (hk : ∀ r, Confines R (k r)) :
    Confines R (f.call >>= k) := by
  intro ends
  refine safe_call_fn (safe_caller hf fun x hx => ?_)
  cases x with
  | ok r => exact hk r ends
  | error l =>
    obtain ⟨r, rfl⟩ := hx
    exact hk r ends

theorem confines_spawnChildren : Confines Any spawnChildren := by
  refine confines_check (calls_mrLog nofun) goes_skip ?_
  refine (single_pipe (goes_error _)).confines.bind fun a _ => ?_
  refine (single_pipe ((goes_error _).seq (goes_closeBoth _))).confines.bind fun b _ => ?_
  refine (single_pipe ((goes_error _).seq (goes_closeBoth _))).confines.bind fun c _ => ?_
  refine ((confines_spawn fun _ => safe_mapperChild _).check ((goes_error _).seq (goes_closeBoth _))).bind fun m _ => ?_
  refine ((confines_spawn fun _ => safe_reducerChild _).check ?_).bind fun r _ => (only_pure trivial).confines
  exact (goes_error _).seq ((goes_terminate _).seq ((goes_closeBoth _).ignore (calls_close _)))

theorem confines_spawnProcesses (inputPath outputPath : Bytes) : Confines Any (spawnProcesses inputPath outputPath) := by
  refine confines_spawnChildren.bind fun x _ => ?_
  obtain ⟨p, m, r⟩ := x
  refine (single_closeUnused p m r).confines.bind fun _ _ => ?_
  exact ((single_of_transfers (transfers_sendInputToMapper _)).within (single_sentToMapper _)).confines

/-- What calls a function that has returned `-1` returns `-1` too. -/
theorem returns_test {command : Fn Unit} {k : Fn α} (hc : Goes Forkless command) :
    Calls (fun _ => True) (fun x => x = .error (.ret (-1))) (do syscallRetCheck (-1) command; k : Fn α).run := by
  have hr : Calls (fun _ => True) (fun x => x = .error (.ret (-1))) (syscallRetCheck (-1) command).run := by
    unfold syscallRetCheck
    rw [if_pos rfl]
    change Calls _ _ (command.run >>= _ : IoProg (Except Leave Unit))
    refine Calls.bind (hc.mono fun _ _ => trivial) fun x hx => ?_
    obtain rfl := hx
    exact rfl
  change Calls _ _ ((syscallRetCheck (-1) command).run >>= _ : IoProg (Except Leave α))
  refine hr.bind fun x hx => ?_
  obtain rfl := hx
  exact rfl

theorem confines_mrRun (logFile inputPath outputPath : Bytes) : Confines Any (mrRun logFile inputPath outputPath) := by
  refine confines_call (single_mrLogInit _) fun r => confines_test goes_skip ?_
  refine confines_check (calls_mrLog nofun) goes_mrLogDestroy ?_
  exact (confines_spawnProcesses _ _).within (fun r => (single_spawned r).confines) (returns_test goes_mrLogDestroy)

theorem confines_mrStart (args : StartArgs) : Confines Any (mrStart args) := by
  unfold mrStart
  split
  · exact (confines_mrRun _ _ _).within (fun r => (single_ran r).confines) (returns_test goes_skip)
  · exact (only_ret _).confines

/-- The threads of a process call nothing of the cleanup. -/
def NoCleanup {ω Φ : Type} (C : ProcessCode ω Φ) (s : Hosted ω Φ) : Prop :=
  ∀ t e, (runtime C.client).call (s.threads.loc t) = .ext e → (Io.sys e).cleanup = false

theorem cleanup_of_serving {e : Sys} (h : e.serving = true) : (Io.sys e).cleanup = false := by
  cases e with
  | fclose f => cases h
  | _ => first | rfl | cases h

/-- **Only the caller returns.** -/
theorem only_caller_returns (ends : Nat → Status) (args : StartArgs) :
    -- in every state of every run: a child whose first call has not failed
    (∀ s p, LoopReaches (selfEnv ends) (fun ph => (mrStartBlock ph).run) .caller (mrStart args).run s p →
      s.child.isSome = true → s.logFailed = false → Confined s p) ∧
    -- at the end of every run
    (∀ s l, Loop (selfEnv ends) (fun ph => (mrStartBlock ph).run) .caller (mrStart args).run s l →
      s.child.isSome = true → ((∃ r, l = .ret r) ↔ s.logFailed = true)) ∧
    -- in every state of the processes that a child runs
    (∀ (pool : PoolArgs) (stdin : Bytes),
      (∀ s, Reach (mapperSystem pool stdin) (fun _ _ => True) s → NoCleanup (mapperCode pool) s) ∧
        ∀ s, Reach (reducerSystem pool stdin) (fun _ _ => True) s → NoCleanup (reducerCode pool) s) := by
  have leaves : ∀ {l : Leave} {s : Self}, Outcome (Any (α := MainPhase)) (.error l) s → s.child.isSome = true →
      ((∃ r, l = .ret r) ↔ s.logFailed = true) := by
    intro l s hl hc
    cases l with
    | ret r =>
      rcases hl with rfl | ⟨-, hl, -⟩
      · cases hc
      · exact iff_of_true ⟨r, rfl⟩ hl
    | exit c => exact iff_of_false nofun (by simp [hl.2])
    | processMain child c => exact iff_of_false nofun (by simp [hl.2])
  -- between the blocks only the caller is left
  have blocks : ∀ ph s, s = Self.caller → Safe (selfEnv ends) Self.Tidy (mrStartBlock ph).run
      (Prog.Ends (fun _ s => s = Self.caller) fun l s => s.child.isSome = true → ((∃ r, l = .ret r) ↔ s.logFailed = true)) s := by
    rintro ph s rfl
    refine ((single_mrStartBlock ph).confines ends).mono fun x s _ hx => ?_
    cases x with
    | ok ph => exact hx.1
    | error l => exact leaves hx
  have start : Safe (selfEnv ends) Self.Tidy (mrStart args).run
      (Prog.Ends (fun _ s => s = Self.caller) fun l s => s.child.isSome = true → ((∃ r, l = .ret r) ↔ s.logFailed = true))
      .caller := by
    refine (confines_mrStart args ends).mono fun x s _ hx => ?_
    cases x with
    | ok ph => exact hx.1
    | error l => exact leaves hx
  refine ⟨?_, ?_, fun pool stdin => ⟨?_, ?_⟩⟩
  · intro s p hr hc hl
    have hs := Safe.loopReaches blocks start hr
    refine ⟨hs.inv hc hl, fun r hp => ?_⟩
    rw [hp] at hs
    have := (hs.2 hc).mp ⟨r, rfl⟩
    rw [hl] at this
    cases this
  · exact fun s l hr => Safe.loop blocks start hr
  · exact fun s hs t e he => cleanup_of_serving (serving_of_reach (serves_mapperCode pool) hs he)
  · exact fun s hs t e he => cleanup_of_serving (serving_of_reach (serves_reducerCode pool) hs he)

end

/-! ## Concrete runs -/

/-- The mapper is forked, then the reducer, and the process is the reducer; its `mr_log_info` returns `r`, and `rest`
follows. -/
def inReducer (r : Int) (rest : List IoRet) : List IoRet :=
  [.sys .ok, .sys .ok, .int 0, .int 0, .sys (.val (.fds 3 4)), .sys (.val (.fds 5 6)), .sys (.val (.fds 7 8)),
    .sys (.val (.pid 10)), .sys (.val (.pid 0)), .int r] ++ rest

/-- `mr_start` on given answers, up to the first loop. -/
def replayStart (rs : List IoRet) : Option (Self × Leave) :=
  replayLoop (fun _ c r => answers (fun _ => .signaled 15) c r) Self.post (fun ph => (mrStartBlock ph).run) 1 .caller
    (mrStart ⟨some [108], some [105], some [111]⟩).run rs

theorem loop_of_replayStart {rs : List IoRet} {x : Self × Leave} (h : replayStart rs = some x) :
    Loop (selfEnv fun _ => .signaled 15) (fun ph => (mrStartBlock ph).run) .caller
      (mrStart ⟨some [108], some [105], some [111]⟩).run x.1 x.2 :=
  loop_of_replay (fun _ _ _ hok => ⟨hok, rfl⟩) h

/-- The reducer cannot close a descriptor, and exits. -/
theorem only_caller_returns_closeFails :
    ∃ s : Self, s.child = some .reducer ∧ Loop (selfEnv fun _ => .signaled 15) (fun ph => (mrStartBlock ph).run) .caller
      (mrStart ⟨some [108], some [105], some [111]⟩).run s (.exit 1) ∧ s.logFailed = false := by
  have h : (replayStart (inReducer 0 [.sys .fail, .int 0, .sys .ok, .sys .ok, .sys .ok, .sys .ok, .sys .ok])).any
      (fun x => x.2 = .exit 1 ∧ x.1.child = some .reducer) = true := by decide
  obtain ⟨x, hx, hp⟩ := (Option.any_eq_true _ _).mp h
  obtain ⟨hl, hc⟩ := of_decide_eq_true hp
  have hr := loop_of_replayStart hx
  rw [hl] at hr
  refine ⟨x.1, hc, hr, ?_⟩
  have := (only_caller_returns (fun _ => .signaled 15) ⟨some [108], some [105], some [111]⟩).2.1 x.1 _ hr (by simp [hc])
  simpa using this

/-- **A child returns from `mr_start`**: the reducer cannot log that it has started, kills the mapper, destroys the log, and returns to the user's program. -/
theorem reducer_returns :
    ∃ s : Self, s.child = some .reducer ∧ Loop (selfEnv fun _ => .signaled 15) (fun ph => (mrStartBlock ph).run) .caller
      (mrStart ⟨some [108], some [105], some [111]⟩).run s (.ret (-1)) ∧ ¬ Confined s (.ret (.error (.ret (-1)))) ∧
      s.calls.any (fun e => e.1.cleanup) = true := by
  have h : (replayStart (inReducer (-1) [.sys .ok, .sys .ok, .sys .ok, .sys .ok, .sys .ok, .sys .ok, .int 0, .sys .ok,
      .sys .fail, .sys .ok, .sys .ok, .sys .ok, .sys .ok, .sys .ok, .sys .ok, .sys .ok,
      .sys .ok])).any
      (fun x => x.2 = .ret (-1) ∧ x.1.child = some .reducer ∧ x.1.calls.any (fun e => e.1.cleanup) = true) = true := by
    decide
  obtain ⟨x, hx, hp⟩ := (Option.any_eq_true _ _).mp h
  obtain ⟨hl, hc, hclean⟩ := of_decide_eq_true hp
  have hr := loop_of_replayStart hx
  rw [hl] at hr
  exact ⟨x.1, hc, hr, fun hconf => hconf.returned (-1) rfl, hclean⟩

end MrLib
