import MrLib.Core.Descriptors
import MrLib.Core.Failure
import MrLib.Pipeline.Main

/-!
# The main process from its first call on

`mr_start` opens the log, makes the pipes and forks the children before it sends anything. In a run in which no call fails
the main process leaves that part with the pipes and the children of its job (`safeMain_mrRunPipeline`), so it is safe from
its first call to the end (`safe_mrStart`). A run that returns, known by its trace, has then delivered (`main_delivered`).
A child leaves the part with `_exit`.
-/

namespace MrLib

open Conc Prog

variable {d : Disk} {job : Job} {pipe : Bytes} {v : MainView} {α : Type}

/-- Nothing has been sent and nothing received. -/
def Unsent (pipe : Bytes) (v : MainView) : Prop := v.1.out = [] ∧ v.2 = pipe

/-- The checked calls of this part that leave the process, besides `pipe` and `fork`. -/
def Sys.setsUp : Sys → Bool
  | .fopen .log _ | .semOpen | .close _ | .dup2 _ _ => true
  | _ => false

section Calls

variable {Q : Except Leave α → MainView → Prop} {k : Fn α} {command : Fn Unit}

theorem safeMain_setsUp {e : Sys} (he : e.setsUp = true) (hv : Unsent pipe v)
    (h : ∀ v', Unsent pipe v' → SafeMain d job k.run Q v') :
    SafeMain d job (do syscallRetCheck (← sysInt e) command; k : Fn α).run Q v := by
  refine safeMain_check (fun hg => by rw [hg] at he; cases he) fun ended x v' hx => ?_
  have hserved : x ≠ .fail ∧ Unsent pipe v' := by
    cases e with
    | fopen f path =>
      cases f <;> cases he
      cases x <;> cases hx
      exact ⟨by simp, hv⟩
    | close fd =>
      cases x <;> cases hx
      refine ⟨by simp, ?_⟩
      split <;> exact hv
    | semOpen | dup2 fd newfd =>
      cases x <;> cases hx
      exact ⟨by simp, hv⟩
    | _ => cases he
  exact ⟨hserved.1, h v' hserved.2⟩

theorem safeMain_pipe {id : PipeId} {k : Nat × Nat → Fn α}
    (h : ∀ fd, (id = .mainToMapper → fd = job.mainToMapper) → (id = .reducerToMain → fd = job.reducerToMain) →
      SafeMain d job (k fd).run Q v) : SafeMain d job (MrLib.pipe id command >>= k).run Q v := by
  refine safe_fn_bind (safe_lift (safeMain_sysCall (by simp) fun ended x v' hx => ?_))
  rcases x with _ | _ | _ | (_ | _ | _ | _ | ⟨r, w⟩ | _ | _ | _ | _ | _)
  case val.fds =>
    have hfd : v' = v ∧ (id = .mainToMapper → (r, w) = job.mainToMapper) ∧
        (id = .reducerToMain → (r, w) = job.reducerToMain) := by
      cases id <;> simp only [MainFiles.serve] at hx
      case mapperToReducer =>
        cases hx
        exact ⟨rfl, by simp, by simp⟩
      all_goals
        split at hx
        · rename_i hfd
          cases hx
          simpa using hfd
        · cases hx
    obtain ⟨rfl, h1, h2⟩ := hfd
    exact ⟨trivial, h (r, w) h1 h2⟩
  all_goals cases id <;> cases hx

/-- A fork: this process is the parent, or the child, which leaves with `_exit`. -/
theorem safeMain_spawn {child : Proc} {format : String} {ps : List (Nat × Nat)} {code : Fn Unit} {k : Nat → Fn α}
    (hcode : SafeMain d job code.run (fun x _ => ∃ child c, x = .error (.processMain child c)) v)
    (hexit : ∀ child c v', Q (.error (.processMain child c)) v') (h : SafeMain d job (k (job.pid child)).run Q v) :
    SafeMain d job ((spawnProcess child format ps code).check command >>= k).run Q v := by
  refine safe_fn_bind (safe_checked (safe_lift ?_))
  refine safe_bind (safeMain_sysCall (by simp) fun ended x v' hx => ?_)
  rcases x with _ | _ | _ | (_ | _ | _ | _ | _ | pid | _ | _ | _ | _)
  all_goals try cases hx
  simp only [MainFiles.serve] at hx
  split at hx
  · rename_i hpid
    cases hx
    subst hpid
    refine ⟨trivial, ?_⟩
    dsimp only
    split
    · refine safe_fn_bind (hcode.mono ?_)
      rintro _ v' - ⟨child, c, rfl⟩
      exact hexit child c v'
    · exact ⟨trivial, h⟩
  · cases hx

/-- The child ends with `_exit` of what its `..._process_main` returns. -/
theorem safeMain_processMain {child : Proc} {Q : Except Leave Unit → MainView → Prop}
    (h : ∀ c v', Q (.error (.processMain child c)) v') :
    SafeMain d job (do
      let exitCode ← processMain child
      throw (.processMain child exitCode) : Fn Unit).run Q v :=
  safe_lift (safe_bind (safeMain_sysCall (by simp) fun ended x v' _ => by
    split <;> exact ⟨trivial, trivial, h _ _⟩))

end Calls

theorem safeMain_mapperChild (p : Pipes) (hv : Unsent pipe v) :
    SafeMain d job (mapperChild p).run (fun x _ => ∃ child c, x = .error (.processMain child c)) v := by
  refine safeMain_logCheck ?_
  iterate 8 refine safeMain_setsUp rfl ‹_› fun v hv => ?_
  exact safeMain_processMain fun c _ => ⟨_, c, rfl⟩

theorem safeMain_reducerChild (p : Pipes) (hv : Unsent pipe v) :
    SafeMain d job (reducerChild p).run (fun x _ => ∃ child c, x = .error (.processMain child c)) v := by
  refine safeMain_logCheck ?_
  iterate 8 refine safeMain_setsUp rfl ‹_› fun v hv => ?_
  exact safeMain_processMain fun c _ => ⟨_, c, rfl⟩

/-- How the part ends: in the parent, with the pipes and the pids of the job, or in a child. -/
def Begun (job : Job) (pipe : Bytes) (x : Except Leave (Pipes × Nat × Nat)) (v : MainView) : Prop :=
  (∃ child c, x = .error (.processMain child c)) ∨
    ∃ p : Pipes, x = .ok (p, job.mapperPid, job.reducerPid) ∧ p.mainToMapper = job.mainToMapper ∧
      p.reducerToMain = job.reducerToMain ∧ Unsent pipe v

theorem safeMain_spawnChildren (hv : Unsent pipe v) : SafeMain d job spawnChildren.run (Begun job pipe) v := by
  refine safeMain_logCheck (safeMain_pipe fun mainToMapper hm _ => ?_)
  refine safeMain_pipe fun mapperToReducer _ _ => safeMain_pipe fun reducerToMain _ hr => ?_
  refine safeMain_spawn (safeMain_mapperChild _ hv) (fun child c _ => .inl ⟨child, c, rfl⟩) ?_
  refine safeMain_spawn (safeMain_reducerChild _ hv) (fun child c _ => .inl ⟨child, c, rfl⟩) ?_
  exact ⟨trivial, .inr ⟨⟨mainToMapper, mapperToReducer, reducerToMain⟩, rfl, hm rfl, hr rfl, hv⟩⟩

theorem safeMain_closeUnused (p : Pipes) (mapperPid reducerPid : Nat) (hv : Unsent pipe v) :
    SafeMain d job (closeUnused p mapperPid reducerPid).run (fun x v' => x = .ok () ∧ Unsent pipe v') v := by
  iterate 4 refine safeMain_setsUp rfl ‹_› fun v hv => ?_
  exact safeMain_logLast ⟨rfl, hv⟩

theorem safeMain_spawnPipeline (hv : Unsent pipe v) : SafeMain d job spawnPipeline.run (Begun job pipe) v := by
  refine safe_fn_bind ((safeMain_spawnChildren hv).mono ?_)
  rintro _ v' - (⟨child, c, rfl⟩ | ⟨p, rfl, hm, hr, hv⟩)
  · exact .inl ⟨child, c, rfl⟩
  · refine safe_fn_bind ((safeMain_closeUnused p _ _ hv).mono ?_)
    rintro _ v' - ⟨rfl, hv⟩
    exact ⟨trivial, .inr ⟨p, rfl, hm, hr, hv⟩⟩

/-- **`mr_run` up to the first `stat`.** -/
theorem safeMain_mrRunPipeline (logFile : Bytes) (hv : Unsent pipe v) :
    SafeMain d job (mrRunPipeline logFile).run (Begun job pipe) v := by
  refine safe_call_fn (safeMain_setsUp rfl hv fun v hv => safeMain_setsUp rfl hv fun v hv => ⟨trivial, ?_⟩)
  refine safe_test (fun h => by omega) fun _ => safeMain_logCheck (safe_within ?_)
  refine (safeMain_spawnPipeline hv).mono fun x v' _ hx => ?_
  obtain ⟨child, c, rfl⟩ | ⟨p, rfl, h⟩ := hx
  · exact .inl ⟨child, c, rfl⟩
  · exact .inr ⟨p, rfl, h⟩

/-- How `mr_start` is left: by returning 0, when it has delivered, or with `_exit` in a child. -/
def Left (d : Disk) (job : Job) (pipe : Bytes) (l : Leave) (v : MainView) : Prop :=
  (∃ child c, l = .processMain child c) ∨ l = .ret 0 ∧ Delivered d job pipe v.1

/-- **`mr_start` is safe** from its first call on. -/
theorem safe_mrStart (logFile : Bytes) (hv : Unsent pipe v) :
    SafeMain d job (mrStart ⟨some logFile, some job.inputPath, some job.outputPath⟩).run
      (Prog.Ends (fun ph v => mainEnds d job pipe (.ok ph) v) (Left d job pipe)) v := by
  refine safe_within ?_
  rw [mrRun_begins]
  refine safe_fn_bind ((safeMain_mrRunPipeline logFile hv).mono fun x v' _ hx => ?_)
  obtain ⟨child, c, rfl⟩ | ⟨⟨mainToMapper, mapperToReducer, reducerToMain⟩, rfl, rfl, rfl, hout, hp⟩ := hx
  · exact .inl ⟨child, c, rfl⟩
  · refine (safeMain_sendAndReceive hout hp).mono fun x v _ hx => ?_
    rcases x with (r | c | ⟨child, c⟩) | ph
    · exact hx.mono fun x v _ hx => by
        cases x with
        | ok ph => exact hx
        | error l => exact .inr hx
    · cases hx.1
    · cases hx.1
    · exact hx

/-- **What the main process has done when `mr_start` returns**, in a run without failures. -/
theorem main_delivered {ends : Nat → Status} {logFile : Bytes} {τ : Trace} {r : Int}
    (h : MrStartReturns ends ⟨some logFile, some job.inputPath, some job.outputPath⟩ τ r)
    (hw : Walks (workEnv d job) (.start, pipe) τ v) : Delivered d job pipe v.1 := by
  obtain ⟨s, hs, hl⟩ := h.walk hw
  obtain rfl := walks_nil.mp hs
  obtain ⟨child, c, hc⟩ | ⟨-, hd⟩ := Safe.loop (fun ph s hph => (safe_mrStartBlock ph hph).mono fun x v _ hx => by
    cases x with
    | ok ph => exact hx
    | error l => exact .inr hx) (safe_mrStart logFile ⟨rfl, rfl⟩) hl
  · cases hc
  · exact hd

end MrLib
