import MrLib.Process.Program

/-!
# The mapper process

`mapper_process_main` and `mapper_worker` of `mapper.c`. The elements of the queue are lines.
-/

namespace MrLib

open Conc

/-- `sizeof(mr_file_line_t)` -/
def sizeofFileLine : Nat := 40

/-- The heads of the loops of `mapper.c`. -/
inductive MapperPhase
  /-- At the loop of `receive_line_from_main_fd`, which `mapper_process_main` calls. -/
  | receive (receiver : Receiver)
  /-- At the loop of `mapper_worker`. -/
  | work

/-- `mapper_worker`, up to its loop. -/
def mapperWorker : Th FileLine MapperPhase := do
  syscallExitCheck (← mrLogInfo "Mapper worker thread started") (pure ())
  return .work

/-- `mapper_worker`: one iteration of its loop, and what follows the loop. -/
def mapperWork : Th FileLine MapperPhase := do
  match ← mrQueuePop with
  | (0, some line) =>
    note (.called line (.mapper line))
    syscallExitCheck (← callUser (.mapper line)) do
      note (.failed line)
      mrLogError "User mapper function failed for file %s, line %lu"
      note (.released line)
    note (.released line)
    return .work
  | (0, none) =>
    -- the element was never written
    let _ ← sysCall .stuck
    returns exitFailure
  | (r, _) =>
    note (.left r)
    syscallExitCheck (← mrLogInfo "Mapper worker thread finished") (pure ())
    returns exitSuccess

/-- `mapper_process_main`, up to the loop that creates the workers: the memory for `threads` and `t_args`. -/
def mapperAllocate (args : PoolArgs) : Th FileLine (Bytes × Bytes) := do
  syscallExitCheck (← mrLogInfo "Mapper process started with %zu threads and queue size %zu") (pure ())
  syscallExitCheck (← mrQueueInitCalls args.queueSize sizeofFileLine) (mrLogError "Failed to initialize mapper queue")
  if !(← allocates .mtxInit) then
    mrLogError "Failed to initialize stdout mutex"
    returns exitFailure
  let threads ← mallocArray args.threads sizeofThrd
  let tArgs ← mallocArray args.threads sizeofThreadArg
  match threads, tArgs with
  | some threads, some tArgs => return (threads, tArgs)
  | _, _ =>
    mrLogError "Failed to allocate memory for mapper threads"
    returns exitFailure

/-- `mapper_process_main`, from there up to its loop. -/
def mapperStart (args : PoolArgs) (threads tArgs : Bytes) : Th FileLine MapperPhase := do
  createWorkers (threadSlots threads tArgs) "Failed to create mapper worker thread %zu" (pure ()) 0 args.threads
  return .receive mrMainReceiverInit

/-- `mapper_process_main`, up to its loop. -/
def mapperProcessMain (args : PoolArgs) : Th FileLine MapperPhase := do
  let (threads, tArgs) ← mapperAllocate args
  mapperStart args threads tArgs

/-- `mapper_process_main`, from the end of its loop on. -/
def mapperFinish (args : PoolArgs) (res : Int) : Th FileLine MapperPhase := do
  syscallExitCheck (← mrQueueClose) (mrLogError "Failed to close queue")
  joinWorkers "Failed to join mapper worker thread %zu" "Mapper worker thread %zu exited with error code %d" 0
    args.threads
  syscallExitCheck res (mrLogError "Error receiving lines from main process")
  syscallExitCheck (← mrLogInfo "Mapper process finished: %zu lines received, %zu pairs produced") (pure ())
  returns exitSuccess

/-- `mapper_process_main`: one iteration of the loop of `receive_line_from_main_fd`, and what its caller does with the
result. The `break` after a failing push leaves the `do ... while (0)` of `SYSCALL_EXIT_CHECK` and nothing else. -/
def mapperReceive (args : PoolArgs) (receiver : Receiver) : Th FileLine MapperPhase := do
  match ← receiveLineFromMain receiver with
  | .again receiver => return .receive receiver
  | .line line receiver =>
    note (.came [line])
    if (← mrQueuePush line) = -1 then
      mrLogError "Failed to push line to queue"
      note (.released line)
    return .receive receiver
  | .eof _ => mapperFinish args 1
  | .failed => mapperFinish args (-1)

/-- The thread functions of the mapper process. -/
def mapperCode (args : PoolArgs) : ProcessCode FileLine MapperPhase where
  main := mapperProcessMain args
  worker := mapperWorker
  body
    | .receive receiver => mapperReceive args receiver
    | .work => mapperWork

/-- The mapper process. -/
def mapperSystem (args : PoolArgs) (stdin : Bytes) : Lts (Hosted FileLine MapperPhase) (Act Tid Val) :=
  (mapperCode args).system args sizeofFileLine stdin

end MrLib
