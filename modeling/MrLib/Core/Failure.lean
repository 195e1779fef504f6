import MrLib.Core.Exact

/-!
# What the result of `mr_start` says about its children

A run of `mr_start` is the trace of its calls with their answers (`MrStartReturns`); `ends pid` is how the process `pid`
ended, and `waitpid` reports it. `exact_mrStartBlock` is the judgement `Exact` about every block of the code,
`loop_verdict` about a whole run.

`wait_for_process` logs the status of a child and returns 0 whatever it is, so the result of `mr_start` does not depend
on it: `statuses_propagate` gives the runs in which the result is nevertheless right.
-/

namespace MrLib

open Conc

/-- `mr_start` has returned `r` after these calls. -/
def MrStartReturns (ends : Nat → Status) (args : StartArgs) (τ : Trace) (r : Int) : Prop :=
  Prog.Loop (Prog.traced (answers ends)) (fun ph => (mrStartBlock ph).run) [] (mrStart args).run τ (.ret r)

/-- Both children were forked, and ended by exiting with `EXIT_SUCCESS`. -/
def Succeeded (ends : Nat → Status) (τ : Trace) : Prop :=
  (∀ child ∈ [Proc.mapper, Proc.reducer], ∃ pid, Forked τ child pid) ∧
    ∀ child pid, Forked τ child pid → ends pid = .exited 0

/-- The result `r` is right: 0 only if both children have succeeded, and `-1` if one of them has not. -/
def StatusesPropagate (ends : Nat → Status) (τ : Trace) (r : Int) : Prop :=
  (r = 0 → Succeeded ends τ) ∧ ((∃ child pid, Forked τ child pid ∧ ends pid ≠ .exited 0) → r = -1)

variable {ends : Nat → Status} {α β : Type} {τ τ' : Trace}

/-! ## Sending the input -/

theorem tells_isDirectory (path : Bytes) : Tells ends notFailed (isDirectory path).call := by
  refine Exact.call ?_ ?_
  · refine (@tells_sys _ (.stat path) rfl (fun r => ∃ b, r = .val (.isDir b)) fun r hr => ?_).bind ?_ ?_
    · match r, hr with
      | .fail, _ => simp
      | .val (.isDir b), _ => simp
    · rintro _ ⟨b, rfl⟩
      exact exact_pure
    · intro r hr
      split
      · exact absurd ⟨_, rfl⟩ hr
      · exact (command_lift _).failing
  · refine (plain_lift _).bind fun r _ => ?_
    split
    · refine plain_pure ?_
      split <;> simp [notFailed]
    · exact (plain_lift _).bind fun _ _ => plain_ret _

theorem exact_sendFileOpen (writeFd : Nat) (filePath : Bytes) :
    Exact ends true true (sendFileOpen writeFd filePath) := by
  refine (tells_mrLogInfo _).check command_pure ?_
  refine (tells_sysInt rfl).check (command_lift _) ?_
  refine (tells_writeN _ _).check (command_seq (command_seq command_pure)) ?_
  exact (tells_writeN _ _).checkLast (command_seq (command_seq command_pure))

theorem exact_sendFileLine (writeFd : Nat) : Exact ends true true (sendFileLine writeFd) := by
  refine tells_getline.always fun r => ?_
  split
  · refine (tells_lineHeader _ _).always fun header => ?_
    refine (tells_writeN _ _).check (command_seq (command_seq command_pure)) ?_
    split
    · exact (tells_writeN _ _).check (command_seq (command_seq command_pure)) exact_pure
    · exact exact_pure
  · exact exact_pure

theorem exact_sendFileEnd (writeFd : Nat) : Exact ends true true (sendFileEnd writeFd) := by
  refine (tells_sysInt rfl).check (command_seq (command_seq command_pure)) ?_
  refine (tells_lineHeader _ _).always fun header => ?_
  refine (tells_writeN _ _).check (command_seq (command_seq command_pure)) ?_
  refine (tells_sysInt rfl).check (command_lift _) ?_
  exact (tells_mrLogInfo _).checkLast command_pure

theorem exact_sendFileLoop (job : Job) (caller : SendCaller) (filePath : Bytes) :
    Exact ends true true (sendFileLoop job caller filePath) := by
  refine (exact_sendFileLine _).bind fun more => ?_
  split
  · exact exact_pure
  · exact (exact_sendFileEnd _).bind fun _ => exact_ret_zero

theorem exact_sendFileToMapper (job : Job) (caller : SendCaller) (filePath : Bytes) :
    Exact ends true true (sendFileToMapper job caller filePath) :=
  (exact_sendFileOpen _ _).bind fun _ => exact_pure

theorem exact_sendEntries (job : Job) (dirPath : Bytes) :
    ∀ entries, Exact ends true true (sendEntries job dirPath entries)
  | [] => (tells_mrLogInfo _).check command_pure exact_ret_zero
  | name :: entries => by
    have ih := exact_sendEntries job dirPath entries
    rw [sendEntries]
    split
    · exact ih
    · refine (tells_isDirectory _).checkVal (command_lift _) fun isDir => ?_
      split
      · exact tells_skipping.always fun _ => ih
      · exact (exact_sendFileToMapper _ _ _).within (exact_check_zero ih) (failing_check (command_lift _)).bind

theorem exact_sentFile (job : Job) (dirPath : Bytes) (entries : List Bytes) :
    Exact ends true true (sentFile job dirPath entries 0) := exact_check_zero (exact_sendEntries _ _ _)

theorem exact_sentInput : Exact ends true true (sentInput 0) :=
  exact_check_zero ((tells_mrLogInfo _).check command_pure exact_ret_zero)

theorem failing_sentInput : Failing ends (sentInput (-1)) := (failing_check command_pure).bind

theorem exact_scan (job : Job) (dirPath : Bytes) :
    Exact ends true true (sendFilesInDirectoryToMapper job dirPath) := by
  refine (tells_mrLogInfo _).check command_pure ?_
  refine (@tells_sys _ (.scandir dirPath) rfl (fun r => ∃ ns, r = .val (.names ns)) fun r hr => ?_).bind ?_ ?_
  · match r, hr with
    | .fail, _ => simp
    | .val (.names ns), _ => simp
  · rintro _ ⟨ns, rfl⟩
    exact (tells_mrLogInfo _).check command_pure (exact_sendEntries _ _ _)
  · intro r hr
    split
    · exact absurd ⟨_, rfl⟩ hr
    · exact (command_lift _).failing

theorem exact_sendInputToMapper (job : Job) : Exact ends true true (sendInputToMapper job) := by
  refine (tells_isDirectory _).checkVal command_pure fun isDir => ?_
  refine (tells_mrLogInfo _).check command_pure ?_
  split
  · exact (exact_sendFileToMapper _ _ _).within exact_sentInput failing_sentInput
  · exact (exact_scan _ _).within exact_sentInput failing_sentInput

theorem exact_caller {job : Job} {f : Fn MainPhase} (hf : Exact ends true true f) (caller : SendCaller) :
    Exact ends true true (caller.within job f) := by
  cases caller with
  | input => exact hf.within exact_sentInput failing_sentInput
  | directory dirPath entries =>
    exact (hf.within (exact_sentFile _ _ _) (failing_check (command_lift _)).bind).within exact_sentInput
      failing_sentInput

/-! ## Receiving the output -/

theorem failing_outputFailed (format : String) : Failing ends (outputFailed format : Fn α) :=
  failing_seq (failing_seq failing_ret)

theorem command_outputFailed (format : String) : Command ends (outputFailed format : Fn α) :=
  command_seq (command_seq (command_throw fun r h => by cases h; rfl))

theorem exact_receiveOutput (job : Job) : Exact ends true true (receiveOutputFromReducer job) := by
  refine (tells_mrLogInfo _).check command_pure ?_
  refine (tells_sysInt rfl).check (command_lift _) ?_
  exact (tells_uninit 16).always fun _ => exact_pure

/-- The part of a record that is read into a block and written to the file. -/
theorem exact_readWrite (fd n : Nat) (block : Bytes) (format format' : String) :
    Exact ends true true (do
      match ← readN fd n with
      | none => outputFailed format
      | some bs => syscallRetCheck (← sysInt (.fwrite (fill block bs))) (outputFailed format') : Fn Unit) := by
  refine (tells_readN fd n).bind (fun r hr => ?_) fun r hr => ?_
  · obtain ⟨bs, rfl⟩ := Option.isSome_iff_exists.mp hr
    exact (tells_sysInt rfl).checkLast (command_outputFailed _)
  · obtain rfl := Option.not_isSome_iff_eq_none.mp hr
    exact failing_outputFailed _

theorem exact_receiveRecordToken (fd n : Nat) : Exact ends true true (receiveRecordToken fd n) := by
  unfold receiveRecordToken
  split
  · rename_i hn
    refine (tells_malloc hn).bind (fun r hr => ?_) fun r hr => ?_
    · obtain ⟨block, rfl⟩ := Option.isSome_iff_exists.mp hr
      exact exact_readWrite _ _ _ _ _
    · obtain rfl := Option.not_isSome_iff_eq_none.mp hr
      exact failing_outputFailed _
  · exact exact_pure

theorem exact_receiveRecordResult (fd n : Nat) : Exact ends true true (receiveRecordResult fd n) := by
  unfold receiveRecordResult
  by_cases hn : 0 < n
  · refine (tells_malloc hn).bind (fun r hr => ?_) fun r hr => ?_
    · obtain ⟨block, rfl⟩ := Option.isSome_iff_exists.mp hr
      simp only [hn, if_true]
      exact exact_readWrite _ _ _ _ _
    · obtain rfl := Option.not_isSome_iff_eq_none.mp hr
      simp only [hn, if_true]
      exact failing_outputFailed _
  · obtain rfl : n = 0 := by omega
    refine tells_malloc_zero.always fun r => ?_
    cases r <;> exact exact_pure

theorem exact_receiveOutputEnd : Exact ends true true receiveOutputEnd := by
  refine (tells_sysInt rfl).check (command_lift _) ?_
  exact (tells_mrLogInfo _).checkLast command_pure

theorem exact_receiveRecord (job : Job) (header : Bytes) : Exact ends true true (receiveRecord job header) := by
  refine (tells_readN _ _).bind (fun r hr => ?_) fun r hr => ?_
  · obtain ⟨bs, rfl⟩ := Option.isSome_iff_exists.mp hr
    cases bs with
    | nil => exact exact_receiveOutputEnd.bind fun _ => exact_ret_zero
    | cons b bs =>
      refine (tells_sysInt rfl).check (command_outputFailed _) ?_
      refine (exact_receiveRecordToken _ _).bind fun _ => ?_
      refine (tells_sysInt rfl).check (command_outputFailed _) ?_
      exact (exact_receiveRecordResult _ _).bind fun _ => exact_pure
  · obtain rfl := Option.not_isSome_iff_eq_none.mp hr
    exact failing_outputFailed _

/-! ## The main process -/

theorem tells_mrLogInit (logFile : Bytes) : Tells ends notFailed (mrLogInit logFile).call := by
  refine Exact.call ?_ ?_
  · refine (tells_sysInt rfl).check command_pure ?_
    exact (tells_sysInt rfl).check (command_seq command_pure) exact_pure
  · refine (plain_lift _).bind fun r _ => (plain_check r (plain_pure trivial)).bind fun _ _ => ?_
    refine (plain_lift _).bind fun r _ => (plain_check r ?_).bind fun _ _ => plain_pure (by simp [notFailed])
    exact (plain_lift _).bind fun _ _ => plain_pure trivial

theorem tells_mrLogDestroy : Tells ends notFailed mrLogDestroy.call := by
  refine Exact.call ?_ ?_
  · refine (tells_sysInt rfl).check (command_seq (command_seq command_pure)) ?_
    refine (tells_sysInt rfl).check (command_seq command_pure) ?_
    exact (tells_sysInt rfl).check command_pure exact_pure
  · refine (plain_lift _).bind fun r _ => (plain_check r ?_).bind fun _ _ => ?_
    · exact (plain_lift _).bind fun _ _ => (plain_lift _).bind fun _ _ => plain_pure trivial
    refine (plain_lift _).bind fun r _ => (plain_check r ?_).bind fun _ _ => ?_
    · exact (plain_lift _).bind fun _ _ => plain_pure trivial
    refine (plain_lift _).bind fun r _ => (plain_check r (plain_pure trivial)).bind fun _ _ => ?_
    exact plain_pure (by simp [notFailed])

/-- `wait_for_process` returns 0 whatever the status is. -/
theorem tells_waitForProcess (pid : Nat) : Tells ends notFailed (waitForProcess pid).call := by
  refine Exact.call ?_ ?_
  · refine (@tells_sys _ (.waitpid pid) rfl (fun r => ∃ st, r = .val (.status st)) fun r hr => ?_).bind ?_ ?_
    · match r, hr with
      | .fail, _ => simp
      | .val (.status st), _ => simp
    · rintro _ ⟨st, rfl⟩
      cases st with
      | exited c => exact (tells_mrLogInfo _).check command_pure exact_pure
      | signaled n => exact (tells_mrLog (by simp)).check command_pure exact_pure
      | other => exact (tells_mrLog (by simp)).check command_pure exact_pure
    · intro r hr
      split
      · exact absurd ⟨_, rfl⟩ hr
      · exact (command_lift _).failing
  · refine (plain_lift _).bind fun r _ => ?_
    split
    · split <;>
        exact (plain_lift _).bind fun r _ => (plain_check r (plain_pure trivial)).bind fun _ _ =>
          plain_pure (by simp [notFailed])
    · exact (plain_lift _).bind fun _ _ => plain_ret _

theorem exact_receivedOutput (job : Job) : Exact ends true true (receivedOutput job 0) := by
  refine exact_check_zero ?_
  refine (tells_sysInt rfl).check (command_seq (command_lift _)) ?_
  refine (tells_waitForProcess _).check (command_seq (command_lift _)) ?_
  exact (tells_waitForProcess _).check (command_lift _) exact_ret_zero

theorem failing_receivedOutput (job : Job) : Failing ends (receivedOutput job (-1)) :=
  (failing_check (command_seq (command_seq (command_seq command_pure)))).bind

theorem exact_sentToMapper (job : Job) : Exact ends true true (sentToMapper job 0) := by
  refine exact_check_zero ?_
  refine (tells_sysInt rfl).check (command_seq (command_seq (command_seq command_pure))) ?_
  exact (exact_receiveOutput job).within (exact_receivedOutput job) (failing_receivedOutput job)

theorem failing_sentToMapper (job : Job) : Failing ends (sentToMapper job (-1)) :=
  (failing_check (command_seq (command_seq (command_lift _)))).bind

theorem command_childFailed (format : String) (fds : List Nat) : Command ends (childFailed format fds) :=
  command_seq (command_seq (command_throw nofun))

theorem tells_processMain (child : Proc) : Tells ends (fun _ => True) (liftM (processMain child) : Fn Int) := by
  refine tells_call fun r hr => ?_
  match r, hr with
  | .sys (.val (.code exitCode)), _ => exact ⟨exitCode, rfl, by simp [failure]⟩

/-- The commands of a child end with `_exit`. -/
theorem exact_mapperChild (p : Pipes) : Exact ends false false (mapperChild p) := by
  refine (tells_mrLogInfo _).check (command_lift _) ?_
  iterate 8 refine (tells_sysInt rfl).check (command_childFailed _ _) ?_
  exact (tells_processMain _).always fun _ => exact_exit nofun

theorem exact_reducerChild (p : Pipes) : Exact ends false false (reducerChild p) := by
  refine (tells_mrLogInfo _).check (command_lift _) ?_
  iterate 8 refine (tells_sysInt rfl).check (command_childFailed _ _) ?_
  exact (tells_processMain _).always fun _ => exact_exit nofun

theorem command_mapperChild (p : Pipes) : Command ends (mapperChild p) := by
  refine command_checkCall (command_lift _) ?_
  iterate 8 refine command_checkCall (command_childFailed _ _) ?_
  exact (command_lift _).bind fun _ => command_throw nofun

theorem command_reducerChild (p : Pipes) : Command ends (reducerChild p) := by
  refine command_checkCall (command_lift _) ?_
  iterate 8 refine command_checkCall (command_childFailed _ _) ?_
  exact (command_lift _).bind fun _ => command_throw nofun

theorem tells_fork (child : Proc) :
    Tells ends (fun pid => pid.isSome = true) (liftM (fork child) : Fn (Option Nat)) := by
  refine tells_call fun r hr => ?_
  match r, hr with
  | .sys .fail, _ => exact ⟨none, rfl, by simp [failure]⟩
  | .sys (.val (.pid pid)), _ => exact ⟨some pid, rfl, by simp [failure]⟩

theorem exact_spawnProcess {child : Proc} {format : String} {ps : List (Nat × Nat)} {code : Fn Unit}
    (hc : Exact ends false false code) : Exact ends false false (spawnProcess child format ps code) := by
  refine (tells_fork child).bind (fun r hr => ?_) fun r hr => ?_
  · obtain ⟨pid, rfl⟩ := Option.isSome_iff_exists.mp hr
    simp only
    split
    · exact hc.bind fun _ => exact_pure
    · exact exact_pure
  · obtain rfl := Option.not_isSome_iff_eq_none.mp hr
    exact failing_seq (failing_seq failing_ret)

theorem command_spawnProcess {child : Proc} {format : String} {ps : List (Nat × Nat)} {code : Fn Unit}
    (hc : Command ends code) : Command ends (spawnProcess child format ps code) := by
  refine (command_lift _).bind fun r => ?_
  split
  · exact command_seq (command_seq (command_throw fun r h => by cases h; rfl))
  · split
    · exact hc.bind fun _ => command_pure
    · exact command_pure

/-- When it goes on, the child has been forked. -/
theorem forked_spawnProcess {child : Proc} {format : String} {ps : List (Nat × Nat)} {code : Fn Unit} {pid : Nat}
    (h : Prog.Runs (Prog.traced (answers ends)) τ (spawnProcess child format ps code).run τ' (.ok pid)) :
    ∃ pid, Forked τ' child pid := by
  rcases runs_fn_bind.mp h with ⟨τ1, x, h1, h2⟩ | ⟨l, hl, -⟩
  · obtain ⟨y, hy, h1⟩ := runs_lift.mp h1
    cases hy
    obtain ⟨r, τ2, ⟨ha, rfl⟩, hk⟩ := Prog.runs_call.mp h1
    match r, ha with
    | .sys .fail, _ =>
      obtain ⟨rfl, rfl⟩ := Prog.runs_ret.mp hk
      rcases failing_seq (failing_seq failing_ret) h2 with he | ⟨l, he, -⟩ <;> cases he
    | .sys (.val (.pid pid)), _ =>
      obtain ⟨rfl, rfl⟩ := Prog.runs_ret.mp hk
      exact ⟨pid, h2.grows.subset (by simp)⟩
  · cases hl

theorem exact_pipe {b : Bool} (id : PipeId) {cmd : Fn Unit} (hc : Command ends cmd) : Exact ends b b (pipe id cmd) := by
  refine (@tells_sys _ (.pipe id) rfl (fun r => ∃ x y, r = .val (.fds x y)) fun r hr => ?_).bind ?_ ?_
  · match r, hr with
    | .fail, _ => simp
    | .val (.fds x y), _ => simp
  · rintro _ ⟨x, y, rfl⟩
    exact exact_pure
  · intro r hr
    split
    · exact absurd ⟨_, _, rfl⟩ hr
    · exact hc.failing

theorem exact_spawnChildren : Exact ends false false spawnChildren := by
  refine (tells_mrLogInfo _).check command_pure ?_
  refine (exact_pipe _ (command_lift _)).bind fun mainToMapper => ?_
  refine (exact_pipe _ (command_seq (command_lift _))).bind fun mapperToReducer => ?_
  refine (exact_pipe _ (command_seq (command_lift _))).bind fun reducerToMain => ?_
  refine ((exact_spawnProcess (exact_mapperChild _)).check (command_spawnProcess (command_mapperChild _))
    (command_seq (command_lift _))).bind fun mapperPid => ?_
  refine ((exact_spawnProcess (exact_reducerChild _)).check (command_spawnProcess (command_reducerChild _))
    (command_seq (command_seq (command_seq (command_lift _))))).bind fun reducerPid => ?_
  exact exact_pure

theorem forked_spawnChildren : Exact ends false true spawnChildren := by
  intro τ τ' a hc hk h
  have hv := exact_spawnChildren hc hk h
  cases a with
  | ok x =>
    refine ⟨hv.1, fun _ => ?_⟩
    obtain ⟨τ1, _, -, h⟩ := runs_bind_ok h
    obtain ⟨τ2, _, -, h⟩ := runs_bind_ok h
    obtain ⟨τ3, _, -, h⟩ := runs_bind_ok h
    obtain ⟨τ4, _, -, h⟩ := runs_bind_ok h
    obtain ⟨τ5, _, -, h⟩ := runs_bind_ok h
    obtain ⟨τ6, _, hm, h⟩ := runs_bind_ok h
    obtain ⟨τ7, _, hr, h⟩ := runs_bind_ok h
    obtain ⟨mpid, hmp⟩ := forked_spawnProcess (runs_check_ok (command_seq (command_lift _)) hm)
    obtain ⟨rpid, hrp⟩ :=
      forked_spawnProcess (runs_check_ok (command_seq (command_seq (command_seq (command_lift _)))) hr)
    have h7 := h.grows
    have h6 := hr.grows
    intro child hchild
    simp only [List.mem_cons, List.not_mem_nil, or_false] at hchild
    rcases hchild with rfl | rfl
    · exact ⟨mpid, (h6.trans h7).subset hmp⟩
    · exact ⟨rpid, h7.subset hrp⟩
  | error l => cases l <;> exact hv

theorem exact_closeUnused (p : Pipes) (mapperPid reducerPid : Nat) :
    Exact ends true true (closeUnused p mapperPid reducerPid) := by
  refine (tells_sysInt rfl).check (command_seq (command_seq (command_lift _))) ?_
  refine (tells_sysInt rfl).check (command_seq (command_seq (command_lift _))) ?_
  refine (tells_sysInt rfl).check (command_seq (command_seq (command_lift _))) ?_
  refine (tells_sysInt rfl).check (command_seq (command_seq (command_lift _))) ?_
  exact (tells_mrLogInfo _).checkLast (command_seq (command_lift _))

theorem exact_spawnProcesses (inputPath outputPath : Bytes) :
    Exact ends false true (spawnProcesses inputPath outputPath) := by
  refine forked_spawnChildren.bind fun x => ?_
  refine (exact_closeUnused _ _ _).bind fun _ => ?_
  exact (exact_sendInputToMapper _).within (exact_sentToMapper _) (failing_sentToMapper _)

theorem failing_spawned : Failing ends (spawned (-1) : Fn α) :=
  (failing_check (command_call.bind fun _ => command_pure)).bind

theorem exact_spawned : Exact ends true true (spawned 0 : Fn α) :=
  exact_check_zero (tells_mrLogDestroy.check command_pure exact_ret_zero)

theorem exact_ran : Exact ends true true (ran 0) := exact_check_zero exact_ret_zero

theorem failing_ran : Failing ends (ran (-1)) := (failing_check command_pure).bind

theorem exact_mrRun (logFile inputPath outputPath : Bytes) :
    Exact ends false true (mrRun logFile inputPath outputPath) := by
  refine (tells_mrLogInit _).check command_pure ?_
  refine (tells_mrLogInfo _).check (command_call.bind fun _ => command_pure) ?_
  exact (exact_spawnProcesses _ _).within exact_spawned failing_spawned

theorem exact_inSpawnProcesses {b : Bool} {f : Fn MainPhase} (hf : Exact ends b true f) :
    Exact ends b true (inSpawnProcesses f) :=
  (hf.within exact_spawned failing_spawned).within exact_ran failing_ran

/-- **Every block of `mr_start`.** -/
theorem exact_mrStartBlock (ph : MainPhase) : Exact ends true true (mrStartBlock ph) := by
  cases ph with
  | line job caller filePath =>
    exact exact_inSpawnProcesses ((exact_caller (exact_sendFileLoop job caller filePath) caller).within
      (exact_sentToMapper _) (failing_sentToMapper _))
  | record job header =>
    exact exact_inSpawnProcesses ((exact_receiveRecord job header).within (exact_receivedOutput _) (failing_receivedOutput _))

theorem exact_mrStart (logFile inputPath outputPath : Bytes) :
    Exact ends false true (mrStart ⟨some logFile, some inputPath, some outputPath⟩) :=
  (exact_mrRun _ _ _).within exact_ran failing_ran

/-- **The run lemma**: a whole run from a trace without a failure. -/
theorem loop_verdict {b : Bool} {p : Fn MainPhase} {l : Leave} (hp : Exact ends b true p) (hc : Clean τ) (hk : Known b τ)
    (h : Prog.Loop (Prog.traced (answers ends)) (fun ph => (mrStartBlock ph).run) τ p.run τ' l) :
    Verdict true τ' (.error l : Except Leave MainPhase) := by
  generalize hq : p.run = q at h
  induction h generalizing b p with
  | leave h => exact hp hc hk (hq ▸ h)
  | next h _ ih =>
    obtain ⟨hc1, hk1⟩ := hp hc hk (hq ▸ h)
    exact ih (exact_mrStartBlock _) hc1 hk1 rfl

/-! ## The result of `mr_start` -/

/-- An argument of `mr_start` is `NULL`. -/
def StartArgs.hasNull (args : StartArgs) : Bool := args.mr.isNone || args.inputPath.isNone || args.outputPath.isNone

theorem mrStart_returns {args : StartArgs} {r : Int} (h : MrStartReturns ends args τ r) :
    r = 0 ∧ args.hasNull = false ∧ Clean τ ∧ BothForked τ ∨ r = -1 ∧ (args.hasNull = true ∨ ¬ Clean τ) := by
  rcases args with ⟨_ | logFile, _ | inputPath, _ | outputPath⟩
  case some.some.some =>
    have hc : Clean [] := fun e he => absurd he List.not_mem_nil
    have hv := loop_verdict (exact_mrStart logFile inputPath outputPath) hc nofun h
    exact hv.imp (fun hv => ⟨hv.1, rfl, hv.2⟩) fun hv => ⟨hv.1, .inr hv.2⟩
  all_goals
    refine .inr ⟨?_, .inl rfl⟩
    cases h with
    | leave h =>
      cases (Prog.runs_ret.mp h).2
      rfl
    | next h _ => cases (Prog.runs_ret.mp h).2

theorem not_clean : ¬ Clean τ ↔ ∃ e ∈ τ, failure e.1 e.2 = true := by
  simp [Clean]

/-- **The statuses of the children.** The result of `mr_start` is right exactly in the runs in which both children have
succeeded, or a call has failed whose result is looked at, or an argument is `NULL`. -/
theorem statuses_propagate {args : StartArgs} {r : Int} (h : MrStartReturns ends args τ r) :
    StatusesPropagate ends τ r ↔
      Succeeded ends τ ∨ (∃ e ∈ τ, failure e.1 e.2 = true) ∨ args.hasNull = true := by
  rcases mrStart_returns h with ⟨rfl, hnull, hc, -⟩ | ⟨rfl, hr⟩
  · constructor
    · exact fun hp => .inl (hp.1 rfl)
    · rintro (hs | he | hn)
      · refine ⟨fun _ => hs, ?_⟩
        rintro ⟨child, pid, hf, he⟩
        exact absurd (hs.2 child pid hf) he
      · exact absurd hc (not_clean.mpr he)
      · rw [hnull] at hn
        cases hn
  · refine iff_of_true ⟨nofun, fun _ => rfl⟩ (.inr ?_)
    rw [← not_clean]
    exact hr.symm

/-- The answers of a job with an empty input file, whose mapper has the pid 10 and whose reducer has the pid 11. -/
def emptyJob (mapperStatus : Status) : List IoRet :=
  [.sys .ok, .sys .ok, .int 0, .int 0,
    .sys (.val (.fds 3 4)), .sys (.val (.fds 5 6)), .sys (.val (.fds 7 8)), .sys (.val (.pid 10)), .sys (.val (.pid 11)),
    .sys .ok, .sys .ok, .sys .ok, .sys .ok, .int 0,
    .sys (.val (.isDir false)), .int 0, .int 0, .sys .ok, .int 8, .int 1,
    .sys .fail, .sys .ok, .sys (.val (.bytes [0, 0, 0, 0, 0, 0, 0])), .int 16, .sys .ok, .int 0, .int 0,
    .sys .ok, .int 0, .sys .ok, .sys (.val (.bytes [0, 0, 0, 0, 0, 0, 0, 0, 0, 0, 0, 0, 0, 0, 0, 0])),
    .sys (.val (.bytes [])), .sys .ok, .int 0,
    .sys .ok, .sys (.val (.status mapperStatus)), .int 0, .sys (.val (.status (.exited 0))), .int 0,
    .sys .ok, .sys .ok, .sys .ok]

def emptyJobEnds (mapperStatus : Status) (pid : Nat) : Status := if pid = 10 then mapperStatus else .exited 0

end MrLib
