import MrLib.Core.Code
import MrLib.Lib.Descriptors

/-!
# The descriptors of the three processes

The calls of `mr_run` up to the point where the main process has closed the ends of the pipes it does not use, on the
descriptors of the process (`fdEnv`), when no call fails: a new descriptor gets the lowest free number, and a `fork`
returns twice, so that the main process and its two children are the runs of one program, `mrRunPipeline`, with which
`mr_run` begins (`mrRun_begins`).

Whatever the caller of `mr_start` has open or closed, the three processes end up with every end of every pipe at one
descriptor of one of them (`descriptor_wiring`). What the children do is right as long as descriptor 0 is open when
`spawn_processes` begins: with `main_to_mapper[0] = 0`, `dup2` does nothing and the `close` that follows it closes the
standard input of the mapper (`mapperTable_stdin`). It is open there, since the log file, which `mr_run` opens first, gets
descriptor 0 if that is free.
-/

namespace MrLib

open Conc Prog

/-- An end of a pipe. -/
inductive PipeEnd
  | read (p : PipeId)
  | write (p : PipeId)
  deriving DecidableEq

/-- What a descriptor of one of the three processes stands for. -/
inductive OpenFile (F : Type)
  /-- A file the caller of `mr_start` had open. -/
  | caller (f : F)
  | file (f : File)
  | pipeEnd (e : PipeEnd)
  deriving DecidableEq

variable {F : Type}

abbrev FdTable (F : Type) := Fds (OpenFile F)

/-- `pipe` with the ends `fd` takes the descriptors from `T` to `T'`. -/
def PipeAt (id : PipeId) (fd : Nat × Nat) (T T' : FdTable F) : Prop :=
  T.Lowest fd.1 ∧ (T.set fd.1 (.pipeEnd (.read id))).Lowest fd.2 ∧
    T' = (T.set fd.1 (.pipeEnd (.read id))).set fd.2 (.pipeEnd (.write id))

/-- Calls that do not fail, and what they do to the descriptors of the process. A `fork` returns in the parent and in the
child, with the same table. -/
def fdEnv (T : FdTable F) (c : Io) (r : IoRet) (T' : FdTable F) : Prop :=
  match c with
  | .log _ _ => r = .int 0 ∧ T' = T
  | .sys (.fopen f _) => r = .sys .ok ∧ ∃ fd, T.Lowest fd ∧ T' = T.set fd (.file f)
  | .sys .semOpen => r = .sys .ok ∧ T' = T
  | .sys (.pipe p) => ∃ fd, r = .sys (.val (.fds fd.1 fd.2)) ∧ PipeAt p fd T T'
  | .sys (.fork _) => (∃ pid, r = .sys (.val (.pid pid))) ∧ T' = T
  | .sys (.close fd) => r = .sys .ok ∧ (T.get fd).isSome = true ∧ T' = T.clear fd
  | .sys (.dup2 fd newfd) => r = .sys .ok ∧ ∃ f, T.get fd = some f ∧ T' = T.set newfd f
  | .sys (.processMain _) => (∃ exitCode, r = .sys (.val (.code exitCode))) ∧ T' = T
  | _ => False

variable {α : Type} {T T' : FdTable F} {x : Except Leave α}

theorem runs_log_check {format : String} {command : Fn Unit} {k : Fn α} :
    Runs fdEnv T (do syscallRetCheck (← mrLogInfo format) command; k : Fn α).run T' x ↔ Runs fdEnv T k.run T' x := by
  change Runs fdEnv T (.call (.log .info format) _) T' x ↔ _
  rw [runs_call]
  constructor
  · rintro ⟨r, T₁, ⟨rfl, rfl⟩, h⟩
    exact h
  · exact fun h => ⟨_, _, ⟨rfl, rfl⟩, h⟩

theorem runs_log_last {format : String} {command : Fn Unit} {y : Except Leave Unit} :
    Runs fdEnv T (do syscallRetCheck (← mrLogInfo format) command : Fn Unit).run T' y ↔ T' = T ∧ y = .ok () := by
  change Runs fdEnv T (.call (.log .info format) _) T' y ↔ _
  rw [runs_call]
  constructor
  · rintro ⟨r, T₁, ⟨rfl, rfl⟩, h⟩
    exact runs_ret.mp h
  · rintro ⟨rfl, rfl⟩
    exact ⟨_, _, ⟨rfl, rfl⟩, .ret⟩

theorem runs_close_check {fd : Nat} {command : Fn Unit} {k : Fn α} :
    Runs fdEnv T (do syscallRetCheck (← close fd) command; k : Fn α).run T' x ↔
      (T.get fd).isSome = true ∧ Runs fdEnv (T.clear fd) k.run T' x := by
  change Runs fdEnv T (.call (.sys (.close fd)) _) T' x ↔ _
  rw [runs_call]
  constructor
  · rintro ⟨r, T₁, ⟨rfl, ho, rfl⟩, h⟩
    exact ⟨ho, h⟩
  · exact fun h => ⟨_, _, ⟨rfl, h.1, rfl⟩, h.2⟩

theorem runs_dup2_check {fd newfd : Nat} {command : Fn Unit} {k : Fn α} :
    Runs fdEnv T (do syscallRetCheck (← sysInt (.dup2 fd newfd)) command; k : Fn α).run T' x ↔
      ∃ f, T.get fd = some f ∧ Runs fdEnv (T.set newfd f) k.run T' x := by
  change Runs fdEnv T (.call (.sys (.dup2 fd newfd)) _) T' x ↔ _
  rw [runs_call]
  constructor
  · rintro ⟨r, T₁, ⟨rfl, f, hf, rfl⟩, h⟩
    exact ⟨f, hf, h⟩
  · exact fun ⟨f, hf, h⟩ => ⟨_, _, ⟨rfl, f, hf, rfl⟩, h⟩

theorem runs_fn_throw {l : Leave} : Runs fdEnv T (throw l : Fn α).run T' x ↔ T' = T ∧ x = .error l := runs_ret

theorem runs_fn_pure {a : α} : Runs fdEnv T (pure a : Fn α).run T' x ↔ T' = T ∧ x = .ok a := runs_ret

theorem runs_processMain {child : Proc} {k : Int → Fn α} :
    Runs fdEnv T (liftM (processMain child) >>= k : Fn α).run T' x ↔ ∃ exitCode, Runs fdEnv T (k exitCode).run T' x := by
  change Runs fdEnv T (.call (.sys (.processMain child)) _) T' x ↔ _
  rw [runs_call]
  constructor
  · rintro ⟨r, T₁, ⟨⟨exitCode, rfl⟩, rfl⟩, h⟩
    exact ⟨exitCode, h⟩
  · exact fun ⟨exitCode, h⟩ => ⟨_, _, ⟨⟨exitCode, rfl⟩, rfl⟩, h⟩

theorem runs_pipe {p : PipeId} {command : Fn Unit} {k : Nat × Nat → Fn α} :
    Runs fdEnv T (pipe p command >>= k).run T' x ↔ ∃ fd T₁, PipeAt p fd T T₁ ∧ Runs fdEnv T₁ (k fd).run T' x := by
  change Runs fdEnv T (.call (.sys (.pipe p)) _) T' x ↔ _
  rw [runs_call]
  constructor
  · rintro ⟨r, T₁, ⟨fd, rfl, hp⟩, h⟩
    exact ⟨fd, T₁, hp, h⟩
  · exact fun ⟨fd, T₁, hp, h⟩ => ⟨_, T₁, ⟨fd, rfl, hp⟩, h⟩

/-- A child that exits as `c`, and its parent. -/
theorem runs_spawn {child c : Proc} {format : String} {ps : List (Nat × Nat)} {code command : Fn Unit}
    {k : Nat → Fn α} {Tc : FdTable F}
    (hc : ∀ T₁ y, Runs fdEnv T code.run T₁ y ↔ T₁ = Tc ∧ ∃ exitCode, y = .error (.processMain c exitCode)) :
    Runs fdEnv T ((spawnProcess child format ps code).check command >>= k).run T' x ↔
      (∃ pid, pid ≠ 0 ∧ Runs fdEnv T (k pid).run T' x) ∨ T' = Tc ∧ ∃ exitCode, x = .error (.processMain c exitCode) := by
  change Runs fdEnv T (.call (.sys (.fork child)) _) T' x ↔ _
  rw [runs_call]
  constructor
  · rintro ⟨r, T₁, ⟨⟨pid, rfl⟩, rfl⟩, h⟩
    cases pid with
    | zero =>
      right
      change Runs fdEnv T₁ (((code.run >>= _) >>= _) >>= _) T' x at h
      obtain ⟨T₂, y, h, hk⟩ := runs_bind.mp h
      obtain ⟨T₃, z, h, hz⟩ := runs_bind.mp h
      obtain ⟨T₄, w, h, hw⟩ := runs_bind.mp h
      obtain ⟨rfl, exitCode, rfl⟩ := (hc _ _).mp h
      obtain ⟨rfl, rfl⟩ := runs_ret.mp hw
      obtain ⟨rfl, rfl⟩ := runs_ret.mp hz
      obtain ⟨rfl, rfl⟩ := runs_ret.mp hk
      exact ⟨rfl, exitCode, rfl⟩
    | succ n => exact .inl ⟨n + 1, Nat.succ_ne_zero n, h⟩
  · rintro (⟨pid, hp, h⟩ | ⟨rfl, exitCode, rfl⟩)
    · cases pid with
      | zero => exact absurd rfl hp
      | succ n => exact ⟨_, _, ⟨⟨n + 1, rfl⟩, rfl⟩, h⟩
    · refine ⟨_, _, ⟨⟨0, rfl⟩, rfl⟩, ?_⟩
      have h : Runs fdEnv T code.run T' (.error (.processMain c exitCode)) := (hc _ _).mpr ⟨rfl, exitCode, rfl⟩
      change Runs fdEnv T (((code.run >>= _) >>= _) >>= _) _ _
      exact runs_bind.mpr ⟨_, _, runs_bind.mpr ⟨_, _, runs_bind.mpr ⟨_, _, h, .ret⟩, .ret⟩, .ret⟩

/-- `mr_log_init`: the log file gets a descriptor. -/
theorem runs_mrLogInit_check {logFile : Bytes} {command : Fn Unit} {k : Fn α} :
    Runs fdEnv T (do syscallRetCheck (← (mrLogInit logFile).call) command; k : Fn α).run T' x ↔
      ∃ fd, T.Lowest fd ∧ Runs fdEnv (T.set fd (.file .log)) k.run T' x := by
  change Runs fdEnv T (.call (.sys (.fopen .log logFile)) _) T' x ↔ _
  rw [runs_call]
  constructor
  · rintro ⟨r, T₁, ⟨rfl, fd, hfd, rfl⟩, h⟩
    change Runs fdEnv _ (.call (.sys .semOpen) _) T' x at h
    obtain ⟨r, T₂, ⟨rfl, rfl⟩, h⟩ := runs_call.mp h
    exact ⟨fd, hfd, h⟩
  · rintro ⟨fd, hfd, h⟩
    exact ⟨_, _, ⟨rfl, fd, hfd, rfl⟩, runs_call.mpr ⟨_, _, ⟨rfl, rfl⟩, h⟩⟩

/-- A sequence: what leaves in its first part has left. -/
theorem runs_seq {β : Type} {f : Fn β} {k : β → Fn α} :
    Runs fdEnv T (f >>= k).run T' x ↔ (∃ T₁ b, Runs fdEnv T f.run T₁ (.ok b) ∧ Runs fdEnv T₁ (k b).run T' x) ∨
      ∃ l, Runs fdEnv T f.run T' (.error l) ∧ x = .error l := by
  change Runs fdEnv T (f.run >>= _) T' x ↔ _
  rw [runs_bind]
  constructor
  · rintro ⟨T₁, y, h, hk⟩
    cases y with
    | ok b => exact .inl ⟨T₁, b, h, hk⟩
    | error l =>
      obtain ⟨rfl, rfl⟩ := runs_ret.mp hk
      exact .inr ⟨l, h, rfl⟩
  · rintro (⟨T₁, b, h, hk⟩ | ⟨l, h, rfl⟩)
    · exact ⟨T₁, _, h, hk⟩
    · exact ⟨T', _, h, .ret⟩

/-! ## The pipes -/

theorem exists_pipeAt (id : PipeId) (T : FdTable F) : ∃ fd T', PipeAt id fd T T' := by
  obtain ⟨fd₀, h₀⟩ := T.exists_lowest
  obtain ⟨fd₁, h₁⟩ := (T.set fd₀ (.pipeEnd (.read id))).exists_lowest
  exact ⟨(fd₀, fd₁), _, h₀, h₁, rfl⟩

theorem PipeAt.unique {id : PipeId} {fd fd' : Nat × Nat} {T T₁ T₂ : FdTable F} (h : PipeAt id fd T T₁)
    (h' : PipeAt id fd' T T₂) : fd = fd' ∧ T₁ = T₂ := by
  obtain ⟨fd₀, fd₁⟩ := fd
  obtain ⟨fd₀', fd₁'⟩ := fd'
  obtain ⟨h₀, h₁, rfl⟩ := h
  obtain ⟨h₀', h₁', rfl⟩ := h'
  obtain rfl : fd₀ = fd₀' := h₀.unique h₀'
  obtain rfl : fd₁ = fd₁' := h₁.unique h₁'
  exact ⟨rfl, rfl⟩

/-- The three calls of `pipe` take `T` to `T'`. -/
def PipesAt (p : Pipes) (T T' : FdTable F) : Prop :=
  ∃ T₁ T₂, PipeAt .mainToMapper p.mainToMapper T T₁ ∧ PipeAt .mapperToReducer p.mapperToReducer T₁ T₂ ∧
    PipeAt .reducerToMain p.reducerToMain T₂ T'

theorem exists_pipesAt (T : FdTable F) : ∃ p T', PipesAt p T T' := by
  obtain ⟨a, T₁, h₁⟩ := exists_pipeAt .mainToMapper T
  obtain ⟨b, T₂, h₂⟩ := exists_pipeAt .mapperToReducer T₁
  obtain ⟨c, T₃, h₃⟩ := exists_pipeAt .reducerToMain T₂
  exact ⟨⟨a, b, c⟩, T₃, T₁, T₂, h₁, h₂, h₃⟩

theorem PipesAt.unique {p p' : Pipes} {T T₁ T₂ : FdTable F} (h : PipesAt p T T₁) (h' : PipesAt p' T T₂) :
    p = p' ∧ T₁ = T₂ := by
  obtain ⟨a, b, c⟩ := p
  obtain ⟨a', b', c'⟩ := p'
  obtain ⟨_, _, h₁, h₂, h₃⟩ := h
  obtain ⟨_, _, h₁', h₂', h₃'⟩ := h'
  obtain ⟨rfl, rfl⟩ := h₁.unique h₁'
  obtain ⟨rfl, rfl⟩ := h₂.unique h₂'
  obtain ⟨rfl, rfl⟩ := h₃.unique h₃'
  exact ⟨rfl, rfl⟩

/-- The descriptor of an end, as `pipe` returned it. -/
def Pipes.fd (p : Pipes) : PipeEnd → Nat
  | .read .mainToMapper => p.mainToMapper.1
  | .write .mainToMapper => p.mainToMapper.2
  | .read .mapperToReducer => p.mapperToReducer.1
  | .write .mapperToReducer => p.mapperToReducer.2
  | .read .reducerToMain => p.reducerToMain.1
  | .write .reducerToMain => p.reducerToMain.2

/-- The six ends of the pipes are open, each once. -/
structure PipesOpen (p : Pipes) (T : FdTable F) : Prop where
  ends : ∀ e fd, T.get fd = some (.pipeEnd e) ↔ fd = p.fd e
  sorted : p.mainToMapper.1 < p.mainToMapper.2 ∧ p.mainToMapper.2 < p.mapperToReducer.1 ∧
    p.mapperToReducer.1 < p.mapperToReducer.2 ∧ p.mapperToReducer.2 < p.reducerToMain.1 ∧
      p.reducerToMain.1 < p.reducerToMain.2

/-- No end of a pipe of this run is open. -/
def NoPipes (T : FdTable F) : Prop := ∀ e fd, T.get fd ≠ some (.pipeEnd e)

theorem PipesAt.pipesOpen {p : Pipes} (hT : NoPipes T) (h : PipesAt p T T') : PipesOpen p T' := by
  obtain ⟨⟨a₀, a₁⟩, ⟨b₀, b₁⟩, ⟨c₀, c₁⟩⟩ := p
  obtain ⟨_, _, ⟨ha₀, ha₁, rfl⟩, ⟨hb₀, hb₁, rfl⟩, ⟨hc₀, hc₁, rfl⟩⟩ := h
  have sorted : a₀ < a₁ ∧ a₁ < b₀ ∧ b₀ < b₁ ∧ b₁ < c₀ ∧ c₀ < c₁ :=
    ⟨ha₀.lt_next ha₁, ha₁.lt_next hb₀, hb₀.lt_next hb₁, hb₁.lt_next hc₀, hc₀.lt_next hc₁⟩
  refine ⟨fun e fd => ?_, sorted⟩
  have hfd := hT e fd
  simp only [Fds.get_set]
  rcases e with e | e <;> cases e <;> simp only [Pipes.fd] <;> grind

/-- The first end gets number 0 if nothing else has it. -/
theorem PipesAt.stdin {p : Pipes} (h : PipesAt p T T') : p.mainToMapper.1 = 0 ↔ T.get 0 = none := by
  obtain ⟨_, _, ⟨ha, -⟩, -⟩ := h
  constructor
  · intro h0
    rw [← h0]
    exact ha.1
  · intro h0
    by_contra hne
    exact ha.2 0 (Nat.pos_of_ne_zero hne) h0

theorem PipesOpen.gets {p : Pipes} (h : PipesOpen p T) :
    T.get p.mainToMapper.1 = some (.pipeEnd (.read .mainToMapper)) ∧
    T.get p.mainToMapper.2 = some (.pipeEnd (.write .mainToMapper)) ∧
    T.get p.mapperToReducer.1 = some (.pipeEnd (.read .mapperToReducer)) ∧
    T.get p.mapperToReducer.2 = some (.pipeEnd (.write .mapperToReducer)) ∧
    T.get p.reducerToMain.1 = some (.pipeEnd (.read .reducerToMain)) ∧
    T.get p.reducerToMain.2 = some (.pipeEnd (.write .reducerToMain)) :=
  ⟨(h.ends _ _).mpr rfl, (h.ends _ _).mpr rfl, (h.ends _ _).mpr rfl, (h.ends _ _).mpr rfl, (h.ends _ _).mpr rfl,
    (h.ends _ _).mpr rfl⟩

/-! ## The three processes -/

/-- The mapper, when it has closed and duplicated. -/
def mapperTable (p : Pipes) (T : FdTable F) : FdTable F :=
  let T := (((T.clear p.mainToMapper.2).clear p.mapperToReducer.1).clear p.reducerToMain.1).clear p.reducerToMain.2
  let T := (T.set 0 (.pipeEnd (.read .mainToMapper))).clear p.mainToMapper.1
  (T.set 1 (.pipeEnd (.write .mapperToReducer))).clear p.mapperToReducer.2

/-- The reducer. -/
def reducerTable (p : Pipes) (T : FdTable F) : FdTable F :=
  let T := (((T.clear p.mainToMapper.1).clear p.mainToMapper.2).clear p.mapperToReducer.2).clear p.reducerToMain.1
  let T := (T.set 0 (.pipeEnd (.read .mapperToReducer))).clear p.mapperToReducer.1
  (T.set 1 (.pipeEnd (.write .reducerToMain))).clear p.reducerToMain.2

/-- The main process. -/
def mainTable (p : Pipes) (T : FdTable F) : FdTable F :=
  (((T.clear p.mainToMapper.1).clear p.mapperToReducer.1).clear p.mapperToReducer.2).clear p.reducerToMain.2

variable {p : Pipes}

theorem runs_mapperChild {y : Except Leave Unit} (h : PipesOpen p T) :
    Runs fdEnv T (mapperChild p).run T' y ↔
      T' = mapperTable p T ∧ ∃ exitCode, y = .error (.processMain .mapper exitCode) := by
  have hs := h.sorted
  obtain ⟨ha₀, ha₁, hb₀, hb₁, hc₀, hc₁⟩ := h.gets
  simp only [mapperChild, runs_log_check, runs_close_check, runs_dup2_check, runs_processMain, runs_fn_throw, stdinFileno, stdoutFileno,
    Fds.get_set, Fds.get_clear, mapperTable]
  simp (disch := omega) only [if_neg, ha₀, ha₁, hb₀, hb₁, hc₀, hc₁, Option.isSome_some, Option.some.injEq, true_and,
    exists_eq_left']
  by_cases h₀ : p.mainToMapper.1 = 0 <;> simp [h₀]

theorem runs_reducerChild {y : Except Leave Unit} (h : PipesOpen p T) :
    Runs fdEnv T (reducerChild p).run T' y ↔
      T' = reducerTable p T ∧ ∃ exitCode, y = .error (.processMain .reducer exitCode) := by
  have hs := h.sorted
  obtain ⟨ha₀, ha₁, hb₀, hb₁, hc₀, hc₁⟩ := h.gets
  simp only [reducerChild, runs_log_check, runs_close_check, runs_dup2_check, runs_processMain, runs_fn_throw, stdinFileno, stdoutFileno,
    Fds.get_set, Fds.get_clear, reducerTable]
  simp (disch := omega) only [if_neg, ha₀, ha₁, hb₀, hb₁, hc₀, hc₁, Option.isSome_some, Option.some.injEq, true_and,
    exists_eq_left', exists_and_left]

theorem runs_closeUnused {mapperPid reducerPid : Nat} {y : Except Leave Unit} (h : PipesOpen p T) :
    Runs fdEnv T (closeUnused p mapperPid reducerPid).run T' y ↔ T' = mainTable p T ∧ y = .ok () := by
  have hs := h.sorted
  obtain ⟨ha₀, -, hb₀, hb₁, -, hc₁⟩ := h.gets
  simp only [closeUnused, runs_close_check, runs_log_last, Fds.get_clear, mainTable]
  simp (disch := omega) only [if_neg, ha₀, hb₀, hb₁, hc₁, Option.isSome_some, true_and]

/-- `spawn_processes`, up to the first `stat`: the pipes and the pids. -/
def spawnPipeline : Fn (Pipes × Nat × Nat) := do
  let (p, mapperPid, reducerPid) ← spawnChildren
  closeUnused p mapperPid reducerPid
  return (p, mapperPid, reducerPid)

/-- `mr_run`, up to the same point. -/
def mrRunPipeline (logFile : Bytes) : Fn (Pipes × Nat × Nat) := do
  syscallRetCheck (← (mrLogInit logFile).call) skip
  syscallRetCheck (← mrLogInfo "Starting MapReduce job with input: %s and output: %s") do
    let _ ← mrLogDestroy.call
  spawnPipeline.within spawned

/-- `spawn_processes` begins with `spawnPipeline`. -/
theorem spawnProcesses_begins (inputPath outputPath : Bytes) : spawnProcesses inputPath outputPath = (do
    let (p, mapperPid, reducerPid) ← spawnPipeline
    let job : Job := ⟨inputPath, outputPath, p.mainToMapper, p.reducerToMain, mapperPid, reducerPid⟩
    (sendInputToMapper job).within (sentToMapper job)) := by
  simp [spawnProcesses, spawnPipeline]

/-- **`mr_run` begins with `mrRunPipeline`**, and goes on in the main process only. -/
theorem mrRun_begins (logFile inputPath outputPath : Bytes) : mrRun logFile inputPath outputPath = (do
    let (p, mapperPid, reducerPid) ← mrRunPipeline logFile
    let job : Job := ⟨inputPath, outputPath, p.mainToMapper, p.reducerToMain, mapperPid, reducerPid⟩
    ((sendInputToMapper job).within (sentToMapper job)).within spawned) := by
  simp only [mrRun, mrRunPipeline, spawnProcesses_begins, bind_assoc, within_bind_spawned]

/-- How `mrRunPipeline` ends in each of the three processes, when the pipes are `p`: the main process has the pids of the
others, which exit with what their `..._process_main` has returned. -/
inductive LeftBy (p : Pipes) : Proc → Except Leave (Pipes × Nat × Nat) → Prop
  | main {mapperPid reducerPid : Nat} (hm : mapperPid ≠ 0) (hr : reducerPid ≠ 0) :
      LeftBy p .main (.ok (p, mapperPid, reducerPid))
  | child {child : Proc} (h : child ≠ .main) (exitCode : Int) : LeftBy p child (.error (.processMain child exitCode))

/-- The descriptors of the three processes when the pipes were opened in `T`. -/
def tables (p : Pipes) (T : FdTable F) : Proc → FdTable F
  | .main => mainTable p T
  | .mapper => mapperTable p T
  | .reducer => reducerTable p T

theorem runs_spawnChildren {y : Except Leave (Pipes × Nat × Nat)} {T₁ : FdTable F} (hp : PipesAt p T T₁)
    (h : PipesOpen p T₁) :
    Runs fdEnv T spawnChildren.run T' y ↔
      (∃ m r, m ≠ 0 ∧ r ≠ 0 ∧ T' = T₁ ∧ y = .ok (p, m, r)) ∨
        ∃ child exitCode, child ≠ .main ∧ T' = tables p T₁ child ∧ y = .error (.processMain child exitCode) := by
  simp only [spawnChildren, runs_log_check, runs_pipe, spawnMapperProcess, spawnReducerProcess]
  constructor
  · rintro ⟨a, T₂, ha, b, T₃, hb, c, T₄, hc, hr⟩
    obtain ⟨rfl, rfl⟩ := hp.unique (show PipesAt ⟨a, b, c⟩ T T₄ from ⟨_, _, ha, hb, hc⟩)
    rcases (runs_spawn fun _ _ => runs_mapperChild h).mp hr with ⟨m, hm, hr⟩ | ⟨rfl, exitCode, rfl⟩
    · rcases (runs_spawn fun _ _ => runs_reducerChild h).mp hr with ⟨r, hr0, hr⟩ | ⟨rfl, exitCode, rfl⟩
      · obtain ⟨rfl, rfl⟩ := runs_fn_pure.mp hr
        exact .inl ⟨m, r, hm, hr0, rfl, rfl⟩
      · exact .inr ⟨.reducer, exitCode, by simp, rfl, rfl⟩
    · exact .inr ⟨.mapper, exitCode, by simp, rfl, rfl⟩
  · intro hy
    obtain ⟨a, b, c⟩ := p
    obtain ⟨T₂, T₃, ha, hb, hc⟩ := hp
    refine ⟨a, T₂, ha, b, T₃, hb, c, T₁, hc, (runs_spawn fun _ _ => runs_mapperChild h).mpr ?_⟩
    rcases hy with ⟨m, r, hm, hr, rfl, rfl⟩ | ⟨child, exitCode, hne, rfl, rfl⟩
    · exact .inl ⟨m, hm, (runs_spawn fun _ _ => runs_reducerChild h).mpr (.inl ⟨r, hr, runs_fn_pure.mpr ⟨rfl, rfl⟩⟩)⟩
    · cases child with
      | main => exact absurd rfl hne
      | mapper => exact .inr ⟨rfl, exitCode, rfl⟩
      | reducer =>
        exact .inl ⟨1, one_ne_zero, (runs_spawn fun _ _ => runs_reducerChild h).mpr (.inr ⟨rfl, exitCode, rfl⟩)⟩

/-- **The three processes**: `spawnPipeline` ends in one of three ways. -/
theorem runs_spawnPipeline {y : Except Leave (Pipes × Nat × Nat)} {T₁ : FdTable F} (hp : PipesAt p T T₁)
    (h : PipesOpen p T₁) : Runs fdEnv T spawnPipeline.run T' y ↔ ∃ P, T' = tables p T₁ P ∧ LeftBy p P y := by
  have closed : ∀ {m r : Nat}, Runs fdEnv T₁ (do closeUnused p m r; return (p, m, r) : Fn (Pipes × Nat × Nat)).run T' y ↔
      T' = mainTable p T₁ ∧ y = .ok (p, m, r) := by
    intro m r
    rw [runs_seq]
    simpa [runs_closeUnused h] using runs_ret
  rw [spawnPipeline, runs_seq]
  constructor
  · rintro (⟨T₂, ⟨q, m, r⟩, hs, hk⟩ | ⟨l, hs, rfl⟩)
    · rcases (runs_spawnChildren hp h).mp hs with ⟨m', r', hm, hr, rfl, hy⟩ | ⟨_, _, _, _, hy⟩
      · cases hy
        obtain ⟨rfl, rfl⟩ := closed.mp hk
        exact ⟨.main, rfl, .main hm hr⟩
      · cases hy
    · rcases (runs_spawnChildren hp h).mp hs with ⟨m', r', -, -, rfl, hy⟩ | ⟨child, exitCode, hne, rfl, hy⟩
      · cases hy
      · cases hy
        exact ⟨child, rfl, .child hne exitCode⟩
  · rintro ⟨P, rfl, hy⟩
    cases hy with
    | @main m r hm hr =>
      have hs := (runs_spawnChildren hp h).mpr (.inl ⟨m, r, hm, hr, rfl, rfl⟩)
      exact .inl ⟨T₁, _, hs, closed.mpr ⟨rfl, rfl⟩⟩
    | child hne exitCode =>
      exact .inr ⟨_, (runs_spawnChildren hp h).mpr (.inr ⟨P, exitCode, hne, rfl, rfl⟩), rfl⟩

/-- A call whose result nobody needs, as `fdEnv` lets no call fail. -/
theorem runs_within_spawned {y : Except Leave (Pipes × Nat × Nat)} {T₁ : FdTable F} (hp : PipesAt p T T₁)
    (h : PipesOpen p T₁) :
    Runs fdEnv T (spawnPipeline.within spawned).run T' y ↔ ∃ P, T' = tables p T₁ P ∧ LeftBy p P y := by
  change Runs fdEnv T (spawnPipeline.run >>= _) T' y ↔ _
  rw [runs_bind]
  constructor
  · rintro ⟨T₂, x, hx, hk⟩
    obtain ⟨P, rfl, hl⟩ := (runs_spawnPipeline hp h).mp hx
    cases hl with
    | main hm hr =>
      obtain ⟨rfl, rfl⟩ := runs_ret.mp hk
      exact ⟨.main, rfl, .main hm hr⟩
    | child hne exitCode =>
      obtain ⟨rfl, rfl⟩ := runs_ret.mp hk
      exact ⟨P, rfl, .child hne exitCode⟩
  · rintro ⟨P, rfl, hl⟩
    refine ⟨_, y, (runs_spawnPipeline hp h).mpr ⟨P, rfl, hl⟩, ?_⟩
    cases hl with
    | main hm hr => exact .ret
    | child hne exitCode => exact .ret

/-! ## The wiring -/

/-- Who holds an end, and at which descriptor. -/
def Pipes.holder (p : Pipes) : PipeEnd → Proc × Nat
  | .write .mainToMapper => (.main, p.mainToMapper.2)
  | .read .mainToMapper => (.mapper, stdinFileno)
  | .write .mapperToReducer => (.mapper, stdoutFileno)
  | .read .mapperToReducer => (.reducer, stdinFileno)
  | .write .reducerToMain => (.reducer, stdoutFileno)
  | .read .reducerToMain => (.main, p.reducerToMain.1)

/-- No process has the write end of a pipe open. -/
def AtEof (Ts : Proc → FdTable F) (q : PipeId) : Prop := ∀ P fd, (Ts P).get fd ≠ some (.pipeEnd (.write q))

/-- `P` closes `fd`. -/
def closing (Ts : Proc → FdTable F) (P : Proc) (fd : Nat) : Proc → FdTable F := Function.update Ts P ((Ts P).clear fd)

/-- Every end of every pipe is held by its holder alone, and the end of a pipe is reached when, and only when, the
holder of its write end closes it. -/
structure Wired (p : Pipes) (Ts : Proc → FdTable F) : Prop where
  held : ∀ P fd e, (Ts P).get fd = some (.pipeEnd e) ↔ (P, fd) = p.holder e
  open_before : ∀ q, ¬ AtEof Ts q
  eof : ∀ q P fd, AtEof (closing Ts P fd) q ↔ (P, fd) = p.holder (.write q)

theorem closing_get {Ts : Proc → FdTable F} {P P' : Proc} {fd fd' : Nat} :
    (closing Ts P fd P').get fd' = if (P', fd') = (P, fd) then none else (Ts P').get fd' := by
  by_cases hP : P' = P
  · subst hP
    simp [closing]
  · simp [closing, hP]

theorem mainTable_get (h : PipesOpen p T) (fd : Nat) (e : PipeEnd) :
    (mainTable p T).get fd = some (.pipeEnd e) ↔ (.main, fd) = p.holder e := by
  have hs := h.sorted
  have he := h.ends e fd
  simp only [mainTable, Fds.get_clear]
  rcases e with e | e <;> cases e <;> simp only [Pipes.fd, Pipes.holder] at he ⊢ <;> grind

theorem reducerTable_get (h : PipesOpen p T) (fd : Nat) (e : PipeEnd) :
    (reducerTable p T).get fd = some (.pipeEnd e) ↔ (.reducer, fd) = p.holder e := by
  have hs := h.sorted
  have he := h.ends e fd
  simp only [reducerTable, Fds.get_set, Fds.get_clear]
  rcases e with e | e <;> cases e <;> simp only [Pipes.fd, Pipes.holder, stdinFileno, stdoutFileno] at he ⊢ <;> grind

theorem mapperTable_get (h : PipesOpen p T) (h0 : p.mainToMapper.1 ≠ 0) (fd : Nat) (e : PipeEnd) :
    (mapperTable p T).get fd = some (.pipeEnd e) ↔ (.mapper, fd) = p.holder e := by
  have hs := h.sorted
  have he := h.ends e fd
  simp only [mapperTable, Fds.get_set, Fds.get_clear]
  rcases e with e | e <;> cases e <;> simp only [Pipes.fd, Pipes.holder, stdinFileno, stdoutFileno] at he ⊢ <;> grind

/-- With `main_to_mapper[0] = 0` the mapper has no standard input. -/
theorem mapperTable_stdin (h : PipesOpen p T) (h0 : p.mainToMapper.1 = 0) :
    (mapperTable p T).get stdinFileno = none := by
  have hs := h.sorted
  simp only [mapperTable, Fds.get_set, Fds.get_clear, h0, stdinFileno]
  simp

/-- The ends of the pipes are where they belong if and only if `main_to_mapper[0]` is not 0. -/
theorem wired_iff (h : PipesOpen p T) : Wired p (tables p T) ↔ p.mainToMapper.1 ≠ 0 := by
  constructor
  · intro hw h0
    have := (hw.held .mapper stdinFileno (.read .mainToMapper)).mpr rfl
    rw [tables, mapperTable_stdin h h0] at this
    cases this
  · intro h0
    have held : ∀ P fd e, (tables p T P).get fd = some (.pipeEnd e) ↔ (P, fd) = p.holder e := by
      intro P fd e
      cases P with
      | main => exact mainTable_get h fd e
      | mapper => exact mapperTable_get h h0 fd e
      | reducer => exact reducerTable_get h fd e
    refine ⟨held, fun q hq => ?_, fun q P fd => ?_⟩
    · exact hq _ _ ((held (p.holder (.write q)).1 (p.holder (.write q)).2 _).mpr rfl)
    · constructor
      · intro hq
        by_contra hne
        refine hq (p.holder (.write q)).1 (p.holder (.write q)).2 ?_
        rw [closing_get, if_neg (Ne.symm hne)]
        exact (held _ _ _).mpr rfl
      · intro he P' fd' hw
        rw [closing_get] at hw
        split at hw
        · cases hw
        · rename_i hne
          exact hne (((held _ _ _).mp hw).trans he.symm)

/-- **Descriptor wiring.** Whatever the caller of `mr_start` has open, and whatever numbers are free: the calls of
`mr_run` end in three processes, of which each end of each pipe is held by one, at one descriptor. -/
theorem descriptor_wiring (logFile : Bytes) (t : Fds F) :
    ∃ (p : Pipes) (Ts : Proc → FdTable F), Wired p Ts ∧ ∀ T' y,
      Runs fdEnv (t.map .caller) (mrRunPipeline logFile).run T' y ↔ ∃ P, T' = Ts P ∧ LeftBy p P y := by
  obtain ⟨fd, hfd⟩ := (t.map (OpenFile.caller (F := F))).exists_lowest
  -- the log file has been opened, so descriptor 0 is in use
  let T : FdTable F := (t.map .caller).set fd (.file .log)
  have hT : NoPipes T := by
    intro e x
    simp only [T, Fds.get_set, Fds.get_map]
    split
    · simp
    · cases t.get x <;> simp
  have h0 : T.get 0 ≠ none := by
    simp only [T, Fds.get_set]
    split
    · simp
    · rename_i hne
      exact hfd.2 0 (by omega)
  obtain ⟨p, T₁, hp⟩ := exists_pipesAt T
  have ho := hp.pipesOpen hT
  refine ⟨p, tables p T₁, (wired_iff ho).mpr fun e => h0 (hp.stdin.mp e), fun T' y => ?_⟩
  rw [mrRunPipeline, runs_mrLogInit_check]
  simp only [runs_log_check]
  constructor
  · rintro ⟨fd', hfd', hr⟩
    obtain rfl := hfd.unique hfd'
    exact (runs_within_spawned hp ho).mp hr
  · exact fun hy => ⟨fd, hfd, (runs_within_spawned hp ho).mpr hy⟩

end MrLib
