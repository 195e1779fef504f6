import MrLib.Protocol.Output
import MrLib.Protocol.Send

/-!
# The main process

`mr_log_init` and `mr_log_destroy` of `log.c`, `core.c`, and `mr_start` of `mr.c`. `mrStart` is the code of
`mr_start` and everything it calls up to the first loop, `mrStartBlock` from the head of a loop to the next; the `fork`s
return in the children too, and a child that does not leave by `_exit` returns from `spawn_mapper_process` or
`spawn_reducer_process` like its parent.
-/

namespace MrLib

open Conc

/-- `mr_log_init` -/
def mrLogInit (logFile : Bytes) : Fn Int := do
  syscallRetCheck (← sysInt (.fopen .log logFile)) skip
  syscallRetCheck (← sysInt .semOpen) do
    let _ ← sysInt (.fclose .log)
  return 0

/-- `mr_log_destroy` -/
def mrLogDestroy : Fn Int := do
  syscallRetCheck (← sysInt (.fclose .log)) do
    let _ ← sysInt .semClose
    let _ ← sysInt .semUnlink
  syscallRetCheck (← sysInt .semClose) do
    let _ ← sysInt .semUnlink
  syscallRetCheck (← sysInt .semUnlink) skip
  return 0

/-- The three pipes. -/
structure Pipes where
  mainToMapper : Nat × Nat
  mapperToReducer : Nat × Nat
  reducerToMain : Nat × Nat
  deriving DecidableEq

def Pipes.all (p : Pipes) : List (Nat × Nat) := [p.mainToMapper, p.mapperToReducer, p.reducerToMain]

/-- The `command` of a failing step of a child: log, close what is open, exit. -/
def childFailed (format : String) (fds : List Nat) : Fn Unit := do
  mrLogError format
  closeAll fds
  exit 1

/-- Call `mapper_process_main` or `reducer_process_main`. -/
def processMain (child : Proc) : IoProg Int := do
  match ← sysCall (.processMain child) with
  | .val (.code exitCode) => return exitCode
  | _ => return 1

/-- `spawn_mapper_process`, the code of the child. -/
def mapperChild (p : Pipes) : Fn Unit := do
  let both : List (Nat × Nat) → List Nat := fun ps => ps.map Prod.fst ++ ps.map Prod.snd
  syscallRetCheck (← mrLogInfo "Mapper process started.") (closeBoth p.all)
  syscallRetCheck (← close p.mainToMapper.2) <|
    childFailed "Failed to close unused write end of main_to_mapper pipe"
      (p.mainToMapper.1 :: both [p.mapperToReducer, p.reducerToMain])
  syscallRetCheck (← close p.mapperToReducer.1) <|
    childFailed "Failed to close unused read end of mapper_to_reducer pipe"
      (p.mainToMapper.1 :: p.mapperToReducer.2 :: both [p.reducerToMain])
  syscallRetCheck (← close p.reducerToMain.1) <|
    childFailed "Failed to close unused read end of reducer_to_main pipe"
      [p.mainToMapper.1, p.mapperToReducer.2, p.reducerToMain.2]
  syscallRetCheck (← close p.reducerToMain.2) <|
    childFailed "Failed to close unused write end reducer_to_main pipe" [p.mainToMapper.1, p.mapperToReducer.2]
  syscallRetCheck (← sysInt (.dup2 p.mainToMapper.1 stdinFileno)) <|
    childFailed "Failed to redirect stdin for mapper process" [p.mainToMapper.1, p.mapperToReducer.2]
  syscallRetCheck (← close p.mainToMapper.1) <|
    childFailed "Failed to close read end of main_to_mapper pipe" [p.mapperToReducer.2]
  syscallRetCheck (← sysInt (.dup2 p.mapperToReducer.2 stdoutFileno)) <|
    childFailed "Failed to redirect stdout for mapper process" [p.mapperToReducer.2]
  syscallRetCheck (← close p.mapperToReducer.2) <|
    childFailed "Failed to close write end of mapper_to_reducer pipe" []
  let exitCode ← processMain .mapper
  throw (.processMain .mapper exitCode)

/-- `spawn_reducer_process`, the code of the child. -/
def reducerChild (p : Pipes) : Fn Unit := do
  let both : List (Nat × Nat) → List Nat := fun ps => ps.map Prod.fst ++ ps.map Prod.snd
  syscallRetCheck (← mrLogInfo "Reducer process started.") (closeBoth p.all)
  syscallRetCheck (← close p.mainToMapper.1) <|
    childFailed "Failed to close unused read end of main_to_mapper pipe"
      (p.mainToMapper.2 :: both [p.mapperToReducer, p.reducerToMain])
  syscallRetCheck (← close p.mainToMapper.2) <|
    childFailed "Failed to close unused write end of main_to_mapper pipe" (both [p.mapperToReducer, p.reducerToMain])
  syscallRetCheck (← close p.mapperToReducer.2) <|
    childFailed "Failed to close unused write end of mapper_to_reducer pipe"
      (p.mapperToReducer.1 :: both [p.reducerToMain])
  syscallRetCheck (← close p.reducerToMain.1) <|
    childFailed "Failed to close unused read end of reducer_to_main pipe" [p.mapperToReducer.1, p.reducerToMain.2]
  syscallRetCheck (← sysInt (.dup2 p.mapperToReducer.1 stdinFileno)) <|
    childFailed "Failed to redirect stdin for reducer process" [p.mapperToReducer.1, p.reducerToMain.2]
  syscallRetCheck (← close p.mapperToReducer.1) <|
    childFailed "Failed to close read end of mapper_to_reducer pipe" [p.reducerToMain.2]
  syscallRetCheck (← sysInt (.dup2 p.reducerToMain.2 stdoutFileno)) <|
    childFailed "Failed to redirect stdout for reducer process" [p.reducerToMain.2]
  syscallRetCheck (← close p.reducerToMain.2) <|
    childFailed "Failed to close write end of reducer_to_reducer pipe" []
  let exitCode ← processMain .reducer
  throw (.processMain .reducer exitCode)

/-- `fork`: the pid, 0 in the child, or `-1`. -/
def fork (child : Proc) : IoProg (Option Nat) := do
  match ← sysCall (.fork child) with
  | .val (.pid pid) => return some pid
  | _ => return none

/-- `spawn_mapper_process` and `spawn_reducer_process`; the pid is what they go on with, and `code` is that of the
child. -/
def spawnProcess (child : Proc) (format : String) (ps : List (Nat × Nat)) (code : Fn Unit) : Fn Nat := do
  match ← fork child with
  | none =>
    mrLogError format
    closeBoth ps
    ret (-1)
  | some pid =>
    if pid = 0 then
      code
    return pid

/-- `spawn_mapper_process` -/
def spawnMapperProcess (p : Pipes) : Fn Nat :=
  spawnProcess .mapper "Failed to fork mapper process" [p.mainToMapper, p.mapperToReducer] (mapperChild p)

/-- `spawn_reducer_process` -/
def spawnReducerProcess (p : Pipes) : Fn Nat :=
  spawnProcess .reducer "Failed to fork reducer process" [p.mapperToReducer, p.reducerToMain] (reducerChild p)

/-- `pipe`, with the `command` for when it fails. -/
def pipe (id : PipeId) (command : Fn Unit) : Fn (Nat × Nat) := do
  match ← sysCall (.pipe id) with
  | .val (.fds r w) => return (r, w)
  | _ =>
    command
    ret (-1)

/-- `wait_for_process` -/
def waitForProcess (pid : Nat) : Fn Int := do
  match ← sysCall (.waitpid pid) with
  | .val (.status status) =>
    match status with
    | .exited _ => syscallRetCheck (← mrLogInfo "%s process exited with code %d") skip
    | .signaled _ => syscallRetCheck (← mrLogWarning "%s process was terminated by signal %d") skip
    | .other => syscallRetCheck (← mrLogWarning "%s process terminated abnormally") skip
    return 0
  | _ =>
    mrLogError "Failed to wait for %s process"
    ret (-1)

/-- `spawn_processes`, up to the two children: the pipes and the pids. -/
def spawnChildren : Fn (Pipes × Nat × Nat) := do
  syscallRetCheck (← mrLogInfo "Spawning mapper and reducer processes...") skip
  let mainToMapper ← pipe .mainToMapper (mrLogError "Failed to create pipe for main to mapper communication")
  let mapperToReducer ← pipe .mapperToReducer do
    mrLogError "Failed to create pipe for mapper to reducer communication"
    closeBoth [mainToMapper]
  let reducerToMain ← pipe .reducerToMain do
    mrLogError "Failed to create pipe for reducer to main communication"
    closeBoth [mainToMapper, mapperToReducer]
  let p : Pipes := ⟨mainToMapper, mapperToReducer, reducerToMain⟩
  let mapperPid ← (spawnMapperProcess p).check do
    mrLogError "Failed to spawn mapper process"
    closeBoth p.all
  let reducerPid ← (spawnReducerProcess p).check do
    mrLogError "Failed to spawn reducer process"
    terminate [mapperPid]
    let _ ← close p.mainToMapper.2
    closeBoth [p.mapperToReducer, p.reducerToMain]
  return (p, mapperPid, reducerPid)

/-- `spawn_processes`, the ends of the pipes that the main process does not use. -/
def closeUnused (p : Pipes) (mapperPid reducerPid : Nat) : Fn Unit := do
  syscallRetCheck (← close p.mainToMapper.1) do
    terminate [mapperPid]
    let _ ← close p.mainToMapper.2
    closeBoth [p.mapperToReducer, p.reducerToMain]
  syscallRetCheck (← close p.mapperToReducer.1) do
    terminate [mapperPid, reducerPid]
    closeAll [p.mainToMapper.2, p.mapperToReducer.2]
    closeBoth [p.reducerToMain]
  syscallRetCheck (← close p.mapperToReducer.2) do
    terminate [mapperPid, reducerPid]
    let _ ← close p.mainToMapper.2
    closeBoth [p.reducerToMain]
  syscallRetCheck (← close p.reducerToMain.2) do
    terminate [mapperPid, reducerPid]
    let _ ← close p.mainToMapper.2
    closeBoth [p.mapperToReducer, p.reducerToMain]
  syscallRetCheck (← mrLogInfo "Successfully spawned mapper (PID: %d) and reducer (PID: %d) processes") do
    terminate [mapperPid, reducerPid]
    closeAll [p.mainToMapper.2, p.reducerToMain.1]

/-- `spawn_processes`, when `receive_output_from_reducer` has returned `r`. -/
def receivedOutput (job : Job) (r : Int) : Fn MainPhase := do
  syscallRetCheck r do
    mrLogError "Failed to receive output from reducer process"
    terminate [job.mapperPid, job.reducerPid]
    let _ ← close job.reducerToMain.1
  syscallRetCheck (← close job.reducerToMain.1) do
    mrLogError "Failed to close read end of reducer_to_main pipe"
    terminate [job.mapperPid, job.reducerPid]
  syscallRetCheck (← (waitForProcess job.mapperPid).call) do
    mrLogError "Failed to wait for mapper process to finish"
    terminate [job.reducerPid]
  syscallRetCheck (← (waitForProcess job.reducerPid).call) do
    mrLogError "Failed to wait for reducer process to finish"
  ret 0

/-- `spawn_processes`, when `send_input_to_mapper` has returned `r`. -/
def sentToMapper (job : Job) (r : Int) : Fn MainPhase := do
  syscallRetCheck r do
    mrLogError "Failed to send input to mapper process"
    terminate [job.mapperPid, job.reducerPid]
    closeAll [job.mainToMapper.2, job.reducerToMain.1]
  syscallRetCheck (← close job.mainToMapper.2) do
    mrLogError "Failed to close write end of main_to_mapper pipe"
    terminate [job.mapperPid, job.reducerPid]
    let _ ← close job.reducerToMain.1
  (receiveOutputFromReducer job).within (receivedOutput job)

/-- `spawn_processes` -/
def spawnProcesses (inputPath outputPath : Bytes) : Fn MainPhase := do
  let (p, mapperPid, reducerPid) ← spawnChildren
  closeUnused p mapperPid reducerPid
  let job : Job := ⟨inputPath, outputPath, p.mainToMapper, p.reducerToMain, mapperPid, reducerPid⟩
  (sendInputToMapper job).within (sentToMapper job)

/-- `mr_run`, when `spawn_processes` has returned `r`. -/
def spawned {α : Type} (r : Int) : Fn α := do
  syscallRetCheck r do
    let _ ← mrLogDestroy.call
  syscallRetCheck (← mrLogDestroy.call) skip
  ret 0

/-- `mr_run` -/
def mrRun (logFile inputPath outputPath : Bytes) : Fn MainPhase := do
  syscallRetCheck (← (mrLogInit logFile).call) skip
  syscallRetCheck (← mrLogInfo "Starting MapReduce job with input: %s and output: %s") do
    let _ ← mrLogDestroy.call
  (spawnProcesses inputPath outputPath).within spawned

/-- It has returned, whatever follows. -/
theorem spawned_bind {α β : Type} (r : Int) (k : α → Fn β) : (spawned r : Fn α) >>= k = spawned r := by
  simp only [spawned, bind_assoc]
  rfl

/-- A call of `spawn_processes` that is cut in two. -/
theorem within_bind_spawned {α β : Type} (f : Fn α) (k : α → Fn β) :
    (f >>= k).within spawned = f.within spawned >>= fun a => (k a).within spawned := by
  change (f.run >>= _ : IoProg _) >>= _ = (f.run >>= _ : IoProg _) >>= _
  rw [bind_assoc, bind_assoc]
  refine bind_congr fun x => ?_
  cases x with
  | ok a => rfl
  | error l =>
    cases l with
    | ret r => exact (congrArg ExceptT.run (spawned_bind r fun a => (k a).within spawned)).symm
    | _ => rfl

/-- `mr_start`, when `mr_run` has returned `r`. -/
def ran (r : Int) : Fn MainPhase := do
  syscallRetCheck r skip
  ret 0

/-- `mr_start` -/
def mrStart (args : StartArgs) : Fn MainPhase :=
  match args with
  | ⟨some logFile, some inputPath, some outputPath⟩ => (mrRun logFile inputPath outputPath).within ran
  | _ => ret (-1)

/-- The callers of a piece of `spawn_processes`. -/
def inSpawnProcesses (f : Fn MainPhase) : Fn MainPhase := (f.within spawned).within ran

/-- The code of `mr_start` from the head of a loop to the next. -/
def mrStartBlock : MainPhase → Fn MainPhase
  | .line job caller filePath =>
    inSpawnProcesses ((caller.within job (sendFileLoop job caller filePath)).within (sentToMapper job))
  | .record job header => inSpawnProcesses ((receiveRecord job header).within (receivedOutput job))

end MrLib
