import MrLib.Core.Failure
import MrLib.Core.Safe
import Mathlib.Tactic.Simps.Basic

/-!
# What the main process owes

An `Account` is what the main process has opened, closed, forked and waited for; `mainEnv` keeps it, whatever the calls
return (`Account.post`), and `SpawnReturns` are the runs of `spawn_processes` in the main process.

`resource_discipline`: when `spawn_processes` returns, every descriptor has been closed once and every child waited for,
exactly if no `fork` has failed, the first `close` after both has not failed, and neither has the fourth one if the first
three succeeded.
-/

namespace MrLib

open Conc Prog

structure Account where
  /-- The descriptors that `pipe` returned. -/
  opened : List Nat
  /-- The calls of `close`, and whether they succeeded. -/
  closed : List (Nat × Bool)
  /-- The pids that `fork` returned; `none` is a failure. -/
  forked : List (Option Nat)
  /-- The pids that `waitpid` was called with. -/
  waited : List Nat
  deriving DecidableEq

@[simps] def Account.empty : Account := ⟨[], [], [], []⟩

@[simps] def Account.pipe (A : Account) (fd : Nat × Nat) : Account := { A with opened := A.opened ++ [fd.1, fd.2] }

/-- A sequence of `close`s. -/
@[simps] def Account.close (A : Account) (cs : List (Nat × Bool)) : Account := { A with closed := A.closed ++ cs }

@[simps] def Account.fork (A : Account) (pid : Option Nat) : Account := { A with forked := A.forked ++ [pid] }

@[simps] def Account.wait (A : Account) (pids : List Nat) : Account := { A with waited := A.waited ++ pids }

@[simp] theorem Account.close_nil (A : Account) : A.close [] = A := by
  simp [Account.close]

@[simp] theorem Account.wait_nil (A : Account) : A.wait [] = A := by
  simp [Account.wait]

/-- The account after a call. -/
def Account.post (A : Account) : Io → IoRet → Account
  | .sys (.pipe _), .sys (.val (.fds r w)) => A.pipe (r, w)
  | .sys (.close fd), .sys .ok => A.close [(fd, true)]
  | .sys (.close fd), _ => A.close [(fd, false)]
  | .sys (.fork _), .sys (.val (.pid pid)) => A.fork (some pid)
  | .sys (.fork _), _ => A.fork none
  | .sys (.waitpid pid), _ => A.wait [pid]
  | _, _ => A

/-- What the kernel promises: a new descriptor is not open, a new child is not one that is still to be waited for, and its
pid is not 0, which is what `fork` returns in the child. -/
def Account.new (A : Account) : Io → IoRet → Bool
  | .sys (.pipe _), .sys (.val (.fds r w)) => r ≠ w ∧ ∀ fd ∈ [r, w], fd ∈ A.opened → fd ∈ A.closed.map Prod.fst
  | .sys (.fork _), .sys (.val (.pid pid)) => pid ≠ 0 ∧ (some pid ∈ A.forked → pid ∈ A.waited)
  | _, _ => true

/-- The calls of the main process. -/
def mainEnv (ends : Nat → Status) (A : Account) (c : Io) (r : IoRet) (A' : Account) : Prop :=
  answers ends c r = true ∧ A.new c r = true ∧ A' = A.post c r

/-- The code of `spawn_processes` from the head of a loop to the next. -/
def spawnProcessesBlock : MainPhase → Fn MainPhase
  | .line job caller filePath => (caller.within job (sendFileLoop job caller filePath)).within (sentToMapper job)
  | .record job header => (receiveRecord job header).within (receivedOutput job)

theorem mrStartBlock_eq (ph : MainPhase) : mrStartBlock ph = inSpawnProcesses (spawnProcessesBlock ph) := by
  cases ph <;> rfl

/-- `spawn_processes` has returned `r`. -/
def SpawnReturns (ends : Nat → Status) (inputPath outputPath : Bytes) (A : Account) (r : Int) : Prop :=
  Loop (mainEnv ends) (fun ph => (spawnProcessesBlock ph).run) .empty (spawnProcesses inputPath outputPath).run A (.ret r)

/-- Every descriptor has been closed once, and every child waited for. -/
structure Account.Disciplined (A : Account) : Prop where
  closed : ∀ fd ∈ A.opened, (A.closed.map Prod.fst).count fd = 1
  waited : ∀ pid, some pid ∈ A.forked → pid ∈ A.waited

/-- The calls have not failed where the code does not clean up properly. -/
structure Account.Spared (A : Account) : Prop where
  forks : none ∉ A.forked
  first : A.forked.length = 2 → ¬ [false] <+: A.closed.map Prod.snd
  fourth : A.forked.length = 2 → ¬ [true, true, true, false] <+: A.closed.map Prod.snd

variable {ends : Nat → Status} {α : Type} {A : Account} {Q : Except Leave α → Account → Prop}

/-! ## Calls -/

/-- Transfers leave the account alone. -/
theorem safe_calls {β : Type} {R : β → Prop} {p : IoProg β} (h : Calls (fun c => c.transfers = true) R p)
    {Q : β → Account → Prop} (hQ : ∀ x, R x → Q x A) : Safe (mainEnv ends) (fun _ => True) p Q A := by
  refine Calls.safe (fun c r A' hc he => ?_) trivial h hQ
  obtain ⟨-, -, rfl⟩ := he
  rcases c with _ | _ | e
  · rfl
  · rfl
  · cases e <;> first | rfl | cases hc

theorem safe_logged {format : String} {k : Fn α} (hk : Safe (mainEnv ends) (fun _ => True) k.run Q A) :
    Safe (mainEnv ends) (fun _ => True) (do mrLogError format; k : Fn α).run Q A :=
  safe_lift (safe_calls (calls_mrLogError rfl) fun _ _ => hk)

theorem safe_close {fd : Nat} {Q : Int → Account → Prop} (hok : Q 0 (A.close [(fd, true)]))
    (hfail : Q (-1) (A.close [(fd, false)])) : Safe (mainEnv ends) (fun _ => True) (close fd) Q A := by
  refine ⟨trivial, ?_⟩
  rintro r A' ⟨hr, -, rfl⟩
  match r, hr with
  | .sys .ok, _ => exact ⟨trivial, hok⟩
  | .sys .fail, _ => exact ⟨trivial, hfail⟩

/-- A checked `close`. -/
theorem safe_close_check {fd : Nat} {command : Fn Unit} {k : Fn α}
    (hfail : Safe (mainEnv ends) (fun _ => True) command.run (Fails Q) (A.close [(fd, false)]))
    (hok : Safe (mainEnv ends) (fun _ => True) k.run Q (A.close [(fd, true)])) :
    Safe (mainEnv ends) (fun _ => True) (do syscallRetCheck (← close fd) command; k : Fn α).run Q A :=
  safe_check (safe_close ⟨nofun, fun _ => hok⟩ ⟨fun _ => hfail, fun h => absurd rfl h⟩)

theorem safe_closeAll : ∀ {fds : List Nat} {A : Account} {Q : Unit → Account → Prop},
    (∀ cs, cs.map Prod.fst = fds → Q () (A.close cs)) → Safe (mainEnv ends) (fun _ => True) (closeAll fds) Q A
  | [], A, Q, h => ⟨trivial, by simpa [Account.close] using h [] rfl⟩
  | fd :: fds, A, Q, h => by
    have rest : ∀ ok, Safe (mainEnv ends) (fun _ => True) (closeAll fds) Q (A.close [(fd, ok)]) := by
      intro ok
      refine safe_closeAll fun cs hcs => ?_
      simpa [Account.close] using h ((fd, ok) :: cs) (by rw [List.map_cons, hcs])
    exact safe_bind (safe_close (rest true) (rest false))

theorem safe_terminate {pids : List Nat} {Q : Unit → Account → Prop} (h : Q () (A.wait pids)) :
    Safe (mainEnv ends) (fun _ => True) (terminate pids) Q A := by
  have kills : ∀ (pids : List Nat) (Q : Unit → Account → Prop), Q () A →
      Safe (mainEnv ends) (fun _ => True) (terminate.killAll pids) Q A := by
    intro pids
    induction pids with
    | nil => exact fun Q h => ⟨trivial, h⟩
    | cons pid pids ih =>
      intro Q h
      refine ⟨trivial, ?_⟩
      rintro r A' ⟨-, -, rfl⟩
      cases r <;> exact ih Q h
  have waits : ∀ (pids : List Nat) (A : Account) (Q : Unit → Account → Prop), Q () (A.wait pids) →
      Safe (mainEnv ends) (fun _ => True) (terminate.waitAll pids) Q A := by
    intro pids
    induction pids with
    | nil => exact fun A Q h => ⟨trivial, by simpa [Account.wait] using h⟩
    | cons pid pids ih =>
      intro A Q h
      refine ⟨trivial, ?_⟩
      rintro r A' ⟨-, -, rfl⟩
      have := ih (A.wait [pid]) Q (by simpa [Account.wait] using h)
      cases r <;> exact this
  exact safe_bind (kills _ _ (waits _ _ _ h))

theorem safe_pipe {id : PipeId} {command : Fn Unit} {k : Nat × Nat → Fn α}
    (hfail : Safe (mainEnv ends) (fun _ => True) command.run (Fails Q) A)
    (hok : ∀ r w, r ≠ w → (∀ fd ∈ [r, w], fd ∈ A.opened → fd ∈ A.closed.map Prod.fst) →
      Safe (mainEnv ends) (fun _ => True) (k (r, w)).run Q (A.pipe (r, w))) :
    Safe (mainEnv ends) (fun _ => True) (pipe id command >>= k).run Q A := by
  refine safe_fn_bind (safe_lift ⟨trivial, ?_⟩)
  rintro r A' ⟨hr, hnew, rfl⟩
  match r, hr with
  | .sys (.val (.fds r w)), _ =>
    have hnew := of_decide_eq_true hnew
    exact ⟨trivial, trivial, hok r w hnew.1 hnew.2⟩
  | .sys .fail, _ =>
    refine ⟨trivial, safe_fn_bind (hfail.mono fun x A' _ hx => ?_)⟩
    cases x with
    | ok _ => exact ⟨trivial, hx⟩
    | error l => exact hx

/-- A child is forked, by its parent. -/
theorem safe_spawn {child : Proc} {format : String} {ps : List (Nat × Nat)} {code command : Fn Unit}
    {k : Nat → Fn α}
    (hfail : ∀ cs, cs.map Prod.fst = ps.map Prod.fst ++ ps.map Prod.snd →
      Safe (mainEnv ends) (fun _ => True) command.run (Fails Q) ((A.fork none).close cs))
    (hok : ∀ pid, (some pid ∈ A.forked → pid ∈ A.waited) →
      Safe (mainEnv ends) (fun _ => True) (k pid).run Q (A.fork (some pid))) :
    Safe (mainEnv ends) (fun _ => True) ((spawnProcess child format ps code).check command >>= k).run Q A := by
  refine safe_fn_bind (safe_checked (safe_lift ⟨trivial, ?_⟩))
  rintro r A' ⟨hr, hnew, rfl⟩
  match r, hr with
  | .sys (.val (.pid pid)), _ =>
    have hnew := of_decide_eq_true hnew
    have hne : pid ≠ 0 := hnew.1
    refine ⟨trivial, ?_⟩
    simp only [hne, if_false]
    exact ⟨trivial, hok pid hnew.2⟩
  | .sys .fail, _ =>
    refine ⟨trivial, safe_logged (safe_lift (safe_closeAll fun cs hcs => ?_))⟩
    refine ⟨trivial, (hfail cs hcs).mono fun x A' _ hx => ?_⟩
    cases x <;> exact hx

/-- `waitpid` fails or returns a status. -/
theorem answers_waitpid {pid : Nat} {x : IoRet} (h : answers ends (.sys (.waitpid pid)) x = true) :
    x = .sys .fail ∨ ∃ status, x = .sys (.val (.status status)) :=
  match x, h with
  | .sys .fail, _ => .inl rfl
  | .sys (.val (.status status)), _ => .inr ⟨status, rfl⟩

/-- What follows a call that was waited for. -/
theorem safe_waited {k : Int → Fn α} (h : ∀ r, Safe (mainEnv ends) (fun _ => True) (k r).run Q A) {f : Fn Int}
    (hf : Transfers Any f) : Safe (mainEnv ends) (fun _ => True) f.run (fun x s' => match x with
      | .ok r | .error (.ret r) => Safe (mainEnv ends) (fun _ => True) (k r).run Q s'
      | .error l => Q (.error l) s') A := by
  refine safe_calls hf fun x hx => ?_
  cases x with
  | ok r => exact h r
  | error l =>
    obtain ⟨r, rfl⟩ := hx
    exact h r

theorem safe_waitFor {pid : Nat} {k : Int → Fn α}
    (h : ∀ r, Safe (mainEnv ends) (fun _ => True) (k r).run Q (A.wait [pid])) :
    Safe (mainEnv ends) (fun _ => True) ((waitForProcess pid).call >>= k).run Q A := by
  refine safe_call_fn (safe_lift ⟨trivial, ?_⟩)
  rintro r A' ⟨hr, -, rfl⟩
  have logged : ∀ level format, Transfers Any (do
      syscallRetCheck (← mrLog level format) skip
      return (0 : Int) : Fn Int) := fun _ _ => only_check (calls_mrLog rfl) transfers_skip (only_pure trivial)
  rcases answers_waitpid hr with rfl | ⟨status, rfl⟩
  · exact ⟨trivial, safe_waited h (transfers_logged (only_ret _))⟩
  · cases status with
    | exited c => exact ⟨trivial, safe_waited h (logged _ _)⟩
    | signaled c => exact ⟨trivial, safe_waited h (logged _ _)⟩
    | other => exact ⟨trivial, safe_waited h (logged _ _)⟩

/-! ## How the runs end -/

/-- The claim of `resource_discipline`. -/
def Account.Fits (A : Account) : Prop := A.Disciplined ↔ A.Spared

/-- A piece goes on with `R`, or returns as it should. -/
abbrev Accounts (R : α → Account → Prop) : Except Leave α → Account → Prop :=
  Ends R fun l A => ∀ r, l = .ret r → A.Fits

theorem Account.fits_of_once (hn : (A.closed.map Prod.fst).Nodup) (hc : A.opened ⊆ A.closed.map Prod.fst)
    (hw : ∀ pid, some pid ∈ A.forked → pid ∈ A.waited) (hs : A.Spared) : A.Fits :=
  iff_of_true ⟨fun _ hfd => List.count_eq_one_of_mem hn (hc hfd), hw⟩ hs

/-- A descriptor is closed twice. -/
theorem Account.fits_of_twice {d : Nat} (ho : d ∈ A.opened) (h2 : 2 ≤ (A.closed.map Prod.fst).count d)
    (hs : ¬ A.Spared) : A.Fits := by
  refine iff_of_false (fun h => ?_) hs
  have := h.closed d ho
  omega

/-- An error path closes `fds`, and then waits for `pids`, or the other way round, and goes on. -/
def Cleans (fds pids : List Nat) (command : Fn Unit) : Prop :=
  ∀ ⦃ends : Nat → Status⦄ ⦃A : Account⦄, Safe (mainEnv ends) (fun _ => True) command.run
    (fun x A' => x = .ok () ∧ ∃ cs, cs.map Prod.fst = fds ∧ A' = (A.close cs).wait pids) A

section Cleans

variable {fds pids fds' pids' : List Nat} {command command' : Fn Unit}

theorem Cleans.seq (h : Cleans fds pids command) (h' : Cleans fds' pids' command') :
    Cleans (fds ++ fds') (pids ++ pids') (do command; command') := by
  intro ends A
  refine safe_fn_bind (h.mono fun x A' _ hx => ?_)
  obtain ⟨rfl, cs, rfl, rfl⟩ := hx
  refine h'.mono fun x A' _ hx => ?_
  obtain ⟨rfl, cs', rfl, rfl⟩ := hx
  exact ⟨rfl, cs ++ cs', List.map_append, by simp [Account.close, Account.wait]⟩

theorem cleans_lift {p : IoProg Unit} (hp : ∀ (ends : Nat → Status) (A : Account),
      Safe (mainEnv ends) (fun _ => True) p (fun _ A' => ∃ cs, cs.map Prod.fst = fds ∧ A' = (A.close cs).wait pids) A) :
    Cleans fds pids (liftM p : Fn Unit) := by
  intro ends A
  change Safe _ _ (p >>= fun b => Prog.ret (Except.ok b) : IoProg (Except Leave Unit)) _ A
  exact safe_bind ((hp ends A).mono fun _ A' _ hx => ⟨trivial, rfl, hx⟩)

theorem cleans_error (format : String) : Cleans [] [] (liftM (mrLogError format) : Fn Unit) :=
  cleans_lift fun ends A => safe_calls (calls_mrLogError rfl) fun _ _ => ⟨[], rfl, by simp⟩

theorem cleans_closeAll (fds : List Nat) : Cleans fds [] (liftM (closeAll fds) : Fn Unit) :=
  cleans_lift fun ends A => safe_closeAll fun cs hcs => ⟨cs, hcs, by simp⟩

theorem cleans_both (ps : List (Nat × Nat)) :
    Cleans (ps.map Prod.fst ++ ps.map Prod.snd) [] (liftM (closeBoth ps) : Fn Unit) := cleans_closeAll _

theorem cleans_terminate (pids : List Nat) : Cleans [] pids (liftM (terminate pids) : Fn Unit) :=
  cleans_lift fun ends A => safe_terminate ⟨[], rfl, by simp⟩

theorem cleans_skip : Cleans [] [] skip := by
  intro ends A
  exact ⟨trivial, rfl, [], rfl, by simp⟩

theorem Cleans.close (fd : Nat) (h : Cleans fds pids command) :
    Cleans (fd :: fds) pids (do let _ ← close fd; command) := by
  intro ends A
  have rest : ∀ ok, Safe (mainEnv ends) (fun _ => True) command.run
      (fun x A' => x = .ok () ∧ ∃ cs, cs.map Prod.fst = fd :: fds ∧ A' = (A.close cs).wait pids)
      (A.close [(fd, ok)]) := by
    intro ok
    refine h.mono fun x A' _ hx => ?_
    obtain ⟨rfl, cs, rfl, rfl⟩ := hx
    exact ⟨rfl, (fd, ok) :: cs, rfl, by simp [Account.close]⟩
  exact safe_lift (safe_close (rest true) (rest false))

/-- The command of a check. -/
theorem Cleans.safe {R : α → Account → Prop} (h : Cleans fds pids command)
    (hA : ∀ cs, cs.map Prod.fst = fds → ((A.close cs).wait pids).Fits) :
    Safe (mainEnv ends) (fun _ => True) command.run (Fails (Accounts R)) A := by
  refine h.mono fun x A' _ hx => ?_
  obtain ⟨rfl, cs, hcs, rfl⟩ := hx
  exact fun r _ => hA cs hcs

end Cleans

/-- The descriptors of the pipes. -/
def Pipes.fds (p : Pipes) : List Nat :=
  [p.mainToMapper.1, p.mainToMapper.2, p.mapperToReducer.1, p.mapperToReducer.2, p.reducerToMain.1, p.reducerToMain.2]

/-- The account when both children have been forked. -/
def forkedAccount (p : Pipes) (mapperPid reducerPid : Nat) : Account :=
  ⟨p.fds, [], [some mapperPid, some reducerPid], []⟩

/-- No child has been forked. -/
theorem fits_early {A : Account} (hn : (A.closed.map Prod.fst).Nodup) (hc : A.opened ⊆ A.closed.map Prod.fst)
    (hf : A.forked = []) : A.Fits := by
  refine Account.fits_of_once hn hc (fun pid h => ?_) ⟨?_, ?_, ?_⟩
  · rw [hf] at h
    cases h
  · simp [hf]
  · simp [hf]
  · simp [hf]

/-- A `fork` has failed, and a descriptor is closed twice. -/
theorem fits_unforked {A : Account} {d : Nat} (ho : d ∈ A.opened) (h2 : 2 ≤ (A.closed.map Prod.fst).count d)
    (hf : none ∈ A.forked) : A.Fits := Account.fits_of_twice ho h2 fun h => h.forks hf

theorem safe_spawnChildren : Safe (mainEnv ends) (fun _ => True) spawnChildren.run
    (Accounts fun x A => A = forkedAccount x.1 x.2.1 x.2.2 ∧ x.1.fds.Nodup ∧ x.2.1 ≠ x.2.2) .empty := by
  refine safe_lift (safe_calls (calls_mrLog rfl) fun r _ => safe_test (fun _ => ?_) fun _ => ?_)
  · exact cleans_skip.safe fun cs hcs => fits_early (by simp [hcs]) (by simp) rfl
  refine safe_pipe ?_ fun a₀ a₁ ha _ => ?_
  · exact (cleans_error _).safe fun cs hcs => fits_early (by simp [hcs]) (by simp) rfl
  refine safe_pipe ?_ fun b₀ b₁ hb hab => ?_
  · refine ((cleans_error _).seq (cleans_both _)).safe fun cs hcs => fits_early ?_ ?_ rfl
    · simpa [hcs] using ha
    · simp [hcs]
  refine safe_pipe ?_ fun c₀ c₁ hc hbc => ?_
  · refine ((cleans_error _).seq (cleans_both _)).safe fun cs hcs => fits_early ?_ ?_ rfl
    · simp at hab
      simp [hcs]
      grind
    · simp [hcs]
  have hn : (Pipes.fds ⟨(a₀, a₁), (b₀, b₁), (c₀, c₁)⟩).Nodup := by
    simp at hab hbc
    simp [Pipes.fds]
    grind
  -- the first `fork` fails: `spawn_mapper_process` and its caller close the same descriptors
  refine safe_spawn (fun cs hcs => ?_) fun m _ => ?_
  · refine ((cleans_error _).seq (cleans_both _)).safe fun cs' hcs' => ?_
    exact fits_unforked (d := a₀) (by simp) (by simp [hcs, hcs', Pipes.all]) (by simp)
  refine safe_spawn (fun cs hcs => ?_) fun r hr => ?_
  · refine ((cleans_error _).seq ((cleans_terminate [m]).seq ((cleans_both _).close a₁))).safe ?_
    exact fun cs' hcs' => fits_unforked (d := b₀) (by simp) (by simp [hcs, hcs']) (by simp)
  refine ⟨trivial, rfl, hn, fun he => ?_⟩
  simp at hr he
  omega

/-- The ends that the main process does not use, closed. -/
def Pipes.unused (p : Pipes) : List (Nat × Bool) :=
  [(p.mainToMapper.1, true), (p.mapperToReducer.1, true), (p.mapperToReducer.2, true), (p.reducerToMain.2, true)]

/-- The account when the ends that are not used have been closed, and `cs` after them. -/
def runningAccount (p : Pipes) (mapperPid reducerPid : Nat) (cs : List (Nat × Bool)) : Account :=
  ⟨p.fds, p.unused ++ cs, [some mapperPid, some reducerPid], []⟩

/-- Both ends that are left have been closed, and both children waited for. -/
theorem fits_late {p : Pipes} {m r : Nat} {c : List (Nat × Bool)} {ws : List Nat} (hn : p.fds.Nodup)
    (hcs : c.map Prod.fst = [p.mainToMapper.2, p.reducerToMain.1]) (hm : m ∈ ws) (hr : r ∈ ws) :
    Account.Fits ⟨p.fds, p.unused ++ c, [some m, some r], ws⟩ := by
  refine Account.fits_of_once ?_ ?_ ?_ ⟨?_, fun _ => ?_, fun _ => ?_⟩
  · simp only [Pipes.fds] at hn
    simp [Pipes.unused, hcs]
    grind
  · simp [Pipes.fds, Pipes.unused, hcs]
  · simp [hm, hr]
  · simp
  · simp [Pipes.unused]
  · simp [Pipes.unused]

theorem safe_closeUnused {p : Pipes} {m r : Nat} (hn : p.fds.Nodup) (hmr : m ≠ r) :
    Safe (mainEnv ends) (fun _ => True) (closeUnused p m r).run (Accounts fun _ A => A = runningAccount p m r [])
      (forkedAccount p m r) := by
  obtain ⟨⟨a₀, a₁⟩, ⟨b₀, b₁⟩, ⟨c₀, c₁⟩⟩ := p
  simp only [Pipes.fds] at hn
  -- the first `close` fails: nobody waits for the reducer
  refine safe_close_check ?_ (safe_close_check ?_ (safe_close_check ?_ (safe_close_check ?_ ?_)))
  · refine ((cleans_terminate [m]).seq ((cleans_both _).close a₁)).safe fun cs hcs => ?_
    refine iff_of_false (fun h => ?_) fun h => ?_
    · have := h.waited r (by simp [forkedAccount])
      simp [forkedAccount] at this
      omega
    · exact h.first rfl (by simp [forkedAccount])
  · refine ((cleans_terminate [m, r]).seq ((cleans_closeAll [a₁, b₁]).seq (cleans_both _))).safe fun cs hcs => ?_
    refine Account.fits_of_once ?_ ?_ ?_ ⟨?_, fun _ => ?_, fun _ => ?_⟩
    · simp [forkedAccount, hcs]
      grind
    · simp [forkedAccount, Pipes.fds, hcs]
    · simp [forkedAccount]
    · simp [forkedAccount]
    · simp [forkedAccount]
    · simp [forkedAccount]
  · refine ((cleans_terminate [m, r]).seq ((cleans_both _).close a₁)).safe fun cs hcs => ?_
    refine Account.fits_of_once ?_ ?_ ?_ ⟨?_, fun _ => ?_, fun _ => ?_⟩
    · simp [forkedAccount, hcs]
      grind
    · simp [forkedAccount, Pipes.fds, hcs]
    · simp [forkedAccount]
    · simp [forkedAccount]
    · simp [forkedAccount]
    · simp [forkedAccount]
  -- the fourth `close` fails: three descriptors are closed again
  · refine ((cleans_terminate [m, r]).seq ((cleans_both _).close a₁)).safe fun cs hcs => ?_
    refine Account.fits_of_twice (d := b₀) (by simp [forkedAccount, Pipes.fds]) ?_ fun h => ?_
    · simp [forkedAccount, hcs, List.count_cons]
      omega
    · exact h.fourth rfl (by simp [forkedAccount])
  · refine safe_check_last (safe_calls (calls_mrLog rfl) fun x _ => ⟨fun _ => ?_, fun _ => rfl⟩)
    refine ((cleans_terminate [m, r]).seq (cleans_closeAll [a₁, c₀])).safe fun cs hcs => ?_
    exact fits_late (p := ⟨(a₀, a₁), (b₀, b₁), (c₀, c₁)⟩) hn hcs (by simp) (by simp)

/-- The three pipes of a job, `b` being the one that the main process has closed. -/
def Job.pipes (job : Job) (b : Nat × Nat) : Pipes := ⟨job.mainToMapper, b, job.reducerToMain⟩

/-- The account of a job when `cs` have been closed since it began. -/
def JobAccount (job : Job) (cs : List (Nat × Bool)) (A : Account) : Prop :=
  ∃ b, (job.pipes b).fds.Nodup ∧ A = runningAccount (job.pipes b) job.mapperPid job.reducerPid cs

/-- The accounts at the heads of the loops. -/
def PhaseAccount : MainPhase → Account → Prop
  | .line job _ _ => JobAccount job []
  | .record job _ => JobAccount job [(job.mainToMapper.2, true)]

theorem safe_receivedOutput {job : Job} (r : Int) (hA : JobAccount job [(job.mainToMapper.2, true)] A) :
    Safe (mainEnv ends) (fun _ => True) (receivedOutput job r).run (Accounts PhaseAccount) A := by
  obtain ⟨b, hn, rfl⟩ := hA
  have late := @fits_late (job.pipes b) job.mapperPid job.reducerPid
  refine safe_test (fun _ => ?_) fun _ => safe_close_check ?_ (safe_waitFor fun r => safe_test (fun _ => ?_) fun _ => ?_)
  · have hc := (cleans_error "Failed to receive output from reducer process").seq
      ((cleans_terminate [job.mapperPid, job.reducerPid]).seq (cleans_skip.close job.reducerToMain.1))
    exact hc.safe fun cs hcs => late (c := _ :: cs) hn (by simpa [Job.pipes] using hcs) (by simp) (by simp)
  · have hc := (cleans_error "Failed to close read end of reducer_to_main pipe").seq
      (cleans_terminate [job.mapperPid, job.reducerPid])
    exact hc.safe fun cs hcs => late (c := _ :: _ :: cs) hn (by simpa [Job.pipes] using hcs) (by simp) (by simp)
  · have hc := (cleans_error "Failed to wait for mapper process to finish").seq (cleans_terminate [job.reducerPid])
    exact hc.safe fun cs hcs => late (c := _ :: _ :: cs) hn (by simpa [Job.pipes] using hcs) (by simp) (by simp)
  · refine safe_waitFor fun r => safe_test (fun _ => ?_) fun _ => ?_
    · refine (cleans_error "Failed to wait for reducer process to finish").safe fun cs hcs => ?_
      exact late (c := _ :: _ :: cs) hn (by simpa [Job.pipes] using hcs) (by simp) (by simp)
    · exact ⟨trivial, fun _ _ => late (c := [_, _]) hn rfl (by simp) (by simp)⟩

theorem safe_sentToMapper {job : Job} (r : Int) (hA : JobAccount job [] A) :
    Safe (mainEnv ends) (fun _ => True) (sentToMapper job r).run (Accounts PhaseAccount) A := by
  have hA' := hA
  obtain ⟨b, hn, rfl⟩ := hA
  have late := @fits_late (job.pipes b) job.mapperPid job.reducerPid
  refine safe_test (fun _ => ?_) fun _ => safe_close_check ?_ (safe_within ?_)
  · have hc := (cleans_error "Failed to send input to mapper process").seq
      ((cleans_terminate [job.mapperPid, job.reducerPid]).seq
        (cleans_closeAll [job.mainToMapper.2, job.reducerToMain.1]))
    exact hc.safe fun cs hcs => late hn hcs (by simp) (by simp)
  · have hc := (cleans_error "Failed to close write end of main_to_mapper pipe").seq
      ((cleans_terminate [job.mapperPid, job.reducerPid]).seq (cleans_skip.close job.reducerToMain.1))
    exact hc.safe fun cs hcs => late (c := _ :: cs) hn (by simpa [Job.pipes] using hcs) (by simp) (by simp)
  · have hjob : JobAccount job [(job.mainToMapper.2, true)]
        ((runningAccount (job.pipes b) job.mapperPid job.reducerPid []).close [(job.mainToMapper.2, true)]) :=
      ⟨b, hn, rfl⟩
    refine safe_calls (transfers_receiveOutput job) fun x hx => ?_
    cases x with
    | ok ph =>
      obtain ⟨header, rfl⟩ := hx
      exact hjob
    | error l =>
      obtain ⟨r, rfl⟩ := hx
      exact safe_receivedOutput r hjob

/-- `send_input_to_mapper`, from its beginning or from the head of its loop. -/
theorem safe_sending {job : Job} {f : Fn MainPhase} (hf : Transfers (Keeps job) f) (hA : JobAccount job [] A) :
    Safe (mainEnv ends) (fun _ => True) (f.within (sentToMapper job)).run (Accounts PhaseAccount) A := by
  refine safe_within (safe_calls hf fun x hx => ?_)
  cases x with
  | ok ph =>
    obtain ⟨caller, filePath, rfl⟩ := hx
    exact hA
  | error l =>
    obtain ⟨r, rfl⟩ := hx
    exact safe_sentToMapper r hA

/-- **One block.** -/
theorem safe_block (ph : MainPhase) (hA : PhaseAccount ph A) :
    Safe (mainEnv ends) (fun _ => True) (spawnProcessesBlock ph).run (Accounts PhaseAccount) A := by
  cases ph with
  | line job caller filePath =>
    exact safe_sending (transfers_caller (transfers_sendFileLoop job caller filePath) caller) hA
  | record job header =>
    refine safe_within (safe_calls (transfers_receiveRecord job header) fun x hx => ?_)
    cases x with
    | ok ph =>
      obtain ⟨header, rfl⟩ := hx
      exact hA
    | error l =>
      obtain ⟨r, rfl⟩ := hx
      exact safe_receivedOutput r hA

theorem safe_spawnProcesses (inputPath outputPath : Bytes) : Safe (mainEnv ends) (fun _ => True)
    (spawnProcesses inputPath outputPath).run (Accounts PhaseAccount) .empty := by
  refine safe_fn_bind (safe_spawnChildren.mono fun x A _ hx => ?_)
  cases x with
  | error l => exact hx
  | ok x =>
    obtain ⟨p, m, r⟩ := x
    obtain ⟨rfl, hn, hmr⟩ := hx
    refine safe_fn_bind ((safe_closeUnused hn hmr).mono fun x A _ hx => ?_)
    cases x with
    | error l => exact hx
    | ok x =>
      obtain rfl : A = runningAccount p m r [] := hx
      exact safe_sending (transfers_sendInputToMapper _) ⟨p.mapperToReducer, hn, rfl⟩

/-- **Resource discipline.** Whatever the calls return: when `spawn_processes` returns, the main process has closed every
descriptor once and waited for every child, exactly if it was spared the failures that the code does not clean up after. -/
theorem resource_discipline {inputPath outputPath : Bytes} {A : Account} {r : Int}
    (h : SpawnReturns ends inputPath outputPath A r) : A.Disciplined ↔ A.Spared :=
  Safe.loop (fun ph _ hA => safe_block ph hA) (safe_spawnProcesses inputPath outputPath) h r rfl

/-! ## Concrete runs -/

/-- `spawn_processes` on given answers, for at most three blocks. -/
def replaySpawn (ends : Nat → Status) (rs : List IoRet) : Option (Account × Leave) :=
  replayLoop (fun A c r => answers ends c r && A.new c r) Account.post (fun ph => (spawnProcessesBlock ph).run) 3 .empty
    (spawnProcesses [105] [111]).run rs

theorem spawnReturns_of_replay {rs : List IoRet} {x : Account × Leave} {r : Int} (h : replaySpawn ends rs = some x)
    (hr : x.2 = .ret r) : SpawnReturns ends [105] [111] x.1 r := by
  have he : ∀ A c r, (answers ends c r && A.new c r) = true → mainEnv ends A c r (A.post c r) := by
    intro A c r hok
    simp only [Bool.and_eq_true] at hok
    exact ⟨hok.1, hok.2, rfl⟩
  have hl := loop_of_replay he h
  rwa [hr] at hl

theorem resource_discipline_emptyJob :
    ∃ A, SpawnReturns (emptyJobEnds (.exited 0)) [105] [111] A 0 ∧ A.Disciplined := by
  have h : (replaySpawn (emptyJobEnds (.exited 0)) ((emptyJob (.exited 0)).drop 3)).any (fun x => x.2 = .ret 0 ∧
      x.1.closed.map Prod.snd = [true, true, true, true, true, true] ∧ x.1.forked = [some 10, some 11]) = true := by
    decide
  obtain ⟨x, hx, hp⟩ := (Option.any_eq_true _ _).mp h
  obtain ⟨hr, hc, hf⟩ := of_decide_eq_true hp
  have hs := spawnReturns_of_replay hx hr
  refine ⟨x.1, hs, (resource_discipline hs).mpr ⟨?_, fun _ => ?_, fun _ => ?_⟩⟩
  · simp [hf]
  · simp [hc]
  · simp [hc]

/-- The three pipes are open, the mapper cannot be forked. -/
def unforkedMapper : List IoRet :=
  [.int 0, .sys (.val (.fds 3 4)), .sys (.val (.fds 5 6)), .sys (.val (.fds 7 8)), .sys .fail, .int 0,
    .sys .ok, .sys .ok, .sys .ok, .sys .ok, .int 0, .sys .ok, .sys .ok, .sys .fail, .sys .ok, .sys .ok, .sys .fail]

/-- Both children are forked, and the first `close` fails. -/
def unwaitedReducer : List IoRet :=
  [.int 0, .sys (.val (.fds 3 4)), .sys (.val (.fds 5 6)), .sys (.val (.fds 7 8)), .sys (.val (.pid 10)),
    .sys (.val (.pid 11)), .sys .fail, .sys .ok, .sys (.val (.status (.signaled 15))), .sys .ok, .sys .ok, .sys .ok,
    .sys .ok, .sys .ok]

/-- **Descriptors are closed twice, and a child is not waited for.** -/
theorem spawnProcesses_undisciplined :
    (∃ A, SpawnReturns (fun _ => .signaled 15) [105] [111] A (-1) ∧ 3 ∈ A.opened ∧ (A.closed.map Prod.fst).count 3 = 2 ∧
      ¬ A.Disciplined) ∧
    ∃ A, SpawnReturns (fun _ => .signaled 15) [105] [111] A (-1) ∧ some 11 ∈ A.forked ∧ 11 ∉ A.waited ∧
      ¬ A.Disciplined := by
  constructor
  · have h : (replaySpawn (fun _ => .signaled 15) unforkedMapper).any (fun x => x.2 = .ret (-1) ∧ 3 ∈ x.1.opened ∧
        (x.1.closed.map Prod.fst).count 3 = 2) = true := by decide
    obtain ⟨x, hx, hp⟩ := (Option.any_eq_true _ _).mp h
    obtain ⟨hr, ho, hc⟩ := of_decide_eq_true hp
    refine ⟨x.1, spawnReturns_of_replay hx hr, ho, hc, fun hd => ?_⟩
    have := hd.closed 3 ho
    omega
  · have h : (replaySpawn (fun _ => .signaled 15) unwaitedReducer).any (fun x => x.2 = .ret (-1) ∧
        some 11 ∈ x.1.forked ∧ 11 ∉ x.1.waited) = true := by decide
    obtain ⟨x, hx, hp⟩ := (Option.any_eq_true _ _).mp h
    obtain ⟨hr, hf, hw⟩ := of_decide_eq_true hp
    exact ⟨x.1, spawnReturns_of_replay hx hr, hf, hw, fun hd => hw (hd.waited 11 hf)⟩

end MrLib
