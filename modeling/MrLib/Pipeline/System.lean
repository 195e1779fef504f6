import MrLib.Pipeline.Main
import MrLib.Process.Calm
import MrLib.Process.Mapper
import MrLib.Process.Reducer

/-!
# The three processes

The main process, the mapper and the reducer with the three pipes between them, from where each end of each pipe is at the
descriptor of one process. Main runs the sequential code of `mr_start`, the others run their threads; steps of the
three interleave in any way. No call of the main process fails.

What has gone into a pipe and what has been taken from it are counted. A read returns nothing only when there is nothing in
the pipe and its writer has closed it or has ended; a write has to fit into the pipe.
-/

namespace MrLib

open Conc Prog

/-! ## The main process -/

/-- The main process at one of its calls, or when `mr_start` has been left. -/
structure MainState where
  at_ : IoFrame (Except Leave MainPhase) ⊕ Leave
  files : MainFiles

/-- The code runs to its next call or to its end. At the head of a loop it goes on to the first call in the body. -/
def settleMain (p : IoProg (Except Leave MainPhase)) : IoFrame (Except Leave MainPhase) ⊕ Leave :=
  match settle p with
  | .inl f => .inl f
  | .inr (.error l) => .inr l
  | .inr (.ok ph) =>
    match settle (mrStartBlock ph).run with
    | .inl f => .inl f
    | .inr (.error l) => .inr l
    | .inr (.ok _) => .inl (.sys .stuck fun _ => .ret (.error (.ret (-1))))

/-- A read has returned nothing, but there may be more. -/
def cutShort (gone : Bool) : Sys → Ret Val → Bool
  | .read _ n, .val (.bytes []) => !gone && n != 0
  | _, _ => false

/-- A call of the main process returns `r`. What is left in the pipe from the reducer is `pipe`, and `gone` says that the
reducer has ended. A `write` takes at least one byte. -/
def MainState.step (d : Disk) (job : Job) (ended : Nat → Option Status) (gone : Bool) (m : MainState) (pipe : Bytes)
    (r : Ret Val) : Option (MainState × Bytes) :=
  match m.at_ with
  | .inr _ => none
  | .inl (.log k) =>
    match r with
    | .ok => some (⟨settleMain (k (.int 0)), m.files⟩, pipe)
    | _ => none
  | .inl (.write fd n rest k) =>
    match r with
    | .val (.count c) =>
      if fd = job.mainToMapper.2 ∧ m.files.closed = false ∧ 0 < c ∧ c ≤ rest.length then
        some (⟨if rest.length ≤ c then settleMain (k (.int n)) else .inl (.write fd n (rest.drop c) k),
          { m.files with out := m.files.out ++ rest.take c }⟩, pipe)
      else none
    | _ => none
  | .inl (.sys e k) =>
    if cutShort gone e r then none
    else (m.files.serve d job ended pipe e r).map fun v => (⟨settleMain (k (.sys r)), v.1⟩, v.2)

/-! ## The children -/

/-- The exit code of a child that has ended: its first thread has returned from `..._process_main`. -/
def PoolState.exitCode {ω Φ : Type} (s : PoolState ω Φ) : Option Int :=
  match s.loc .controller with
  | .done c => some c
  | _ => none

/-- A step of a child. It ends with its first thread; `gone` says that nobody will write into its standard input. -/
def ProcessCode.pipedStep {ω Φ : Type} (C : ProcessCode ω Φ) (room : Nat) (gone : Bool) (s : Hosted ω Φ)
    (a : Act Tid Val) : Option (Hosted ω Φ) :=
  if s.threads.exitCode.isSome then none
  else match a with
    | .ret t r =>
      match (runtime C.client).call (s.threads.loc t) with
      | .ext e => if cutShort gone e r then none else C.step room s a
      | _ => C.step room s a
    | _ => C.step room s a

/-! ## The system -/

/-- What the pipeline runs on: the input, the paths, the pipes and the processes of the job, the attributes, and how many
bytes a pipe holds. -/
structure Plant where
  disk : Disk
  job : Job
  mapper : PoolArgs
  reducer : PoolArgs
  capacity : Nat
  pids : job.mapperPid ≠ job.reducerPid

/-- The three processes, and how many bytes have been taken from each pipe. -/
structure Pipeline where
  main : MainState
  mapper : PoolState FileLine MapperPhase
  reducer : PoolState Ptr ReducerPhase
  mapperTook : Nat
  reducerTook : Nat
  mainTook : Nat

namespace Pipeline

variable (P : Plant)

/-- What is in the pipe to the mapper. -/
def toMapper (s : Pipeline) : Bytes := s.main.files.out.drop s.mapperTook

/-- What is in the pipe from the mapper to the reducer. -/
def toReducer (s : Pipeline) : Bytes := s.mapper.mem.stdout.out.drop s.reducerTook

/-- What is in the pipe from the reducer. -/
def toMain (s : Pipeline) : Bytes := s.reducer.mem.stdout.out.drop s.mainTook

/-- The children that have ended. -/
def ended (s : Pipeline) (pid : Nat) : Option Status :=
  if pid = P.job.mapperPid then s.mapper.exitCode.map .exited
  else if pid = P.job.reducerPid then s.reducer.exitCode.map .exited
  else none

/-- No pipe holds more than it can. -/
def fits (s : Pipeline) : Bool :=
  s.toMapper.length ≤ P.capacity && s.toReducer.length ≤ P.capacity && s.toMain.length ≤ P.capacity

end Pipeline

/-- Who makes a step. -/
inductive PipeAct
  | main (r : Ret Val)
  | mapper (a : Act Tid Val)
  | reducer (a : Act Tid Val)

/-- A step of one of the processes, before it is known whether what it writes fits. -/
def Pipeline.move (P : Plant) (s : Pipeline) : PipeAct → Option Pipeline
  | .main r =>
    (s.main.step P.disk P.job (s.ended P) s.reducer.exitCode.isSome s.toMain r).map fun x =>
      { s with main := x.1, mainTook := s.mainTook + (s.toMain.length - x.2.length) }
  | .mapper a =>
    ((mapperCode P.mapper).pipedStep (P.mapper.room sizeofFileLine) s.main.files.closed ⟨s.mapper, s.toMapper⟩ a).map
      fun x => { s with mapper := x.threads, mapperTook := s.mapperTook + (s.toMapper.length - x.stdin.length) }
  | .reducer a =>
    ((reducerCode P.reducer).pipedStep (P.reducer.room sizeofPtr) s.mapper.exitCode.isSome ⟨s.reducer, s.toReducer⟩
      a).map
      fun x => { s with reducer := x.threads, reducerTook := s.reducerTook + (s.toReducer.length - x.stdin.length) }

/-- **The pipeline.** -/
def pipeline (P : Plant) : Lts Pipeline PipeAct where
  init :=
    { main := ⟨settleMain (mrStartWork P.job).run, .start⟩
      mapper := ((mapperCode P.mapper).init P.mapper.queueSize []).threads
      reducer := ((reducerCode P.reducer).init P.reducer.queueSize []).threads
      mapperTook := 0
      reducerTook := 0
      mainTook := 0 }
  step s a :=
    match s.move P a with
    | some s' => if s'.fits P then some s' else none
    | none => none

/-- No call of a child fails, and the user's functions run as `user` says. -/
def CalmPipe (P : Plant) (user : Sys → User) (s : Pipeline) : PipeAct → Prop
  | .main _ => True
  | .mapper a => Calm (mapperCode P.mapper) user ⟨s.mapper, s.toMapper⟩ a
  | .reducer a => Calm (reducerCode P.reducer) user ⟨s.reducer, s.toReducer⟩ a

/-! ## Schedules -/

/-- What the calls of the main process return. -/
def mainAnswer (d : Disk) (ended : Nat → Option Status) (m : MainFiles) (pipe : Bytes) : Sys → Ret Val
  | .stat path => .val (.isDir (d.find path = some .dir))
  | .scandir path => .val (.names (d.list path))
  | .uninit n | .malloc n => .val (.bytes (List.replicate n 0))
  | .getline => if m.rest = [] then .fail else .val (.bytes (nextLine m.rest))
  | .read _ n => .val (.bytes (pipe.take n))
  | .waitpid pid => .val (.status ((ended pid).getD .other))
  | _ => .ok

/-- A turn of a process. -/
inductive PipeTurn
  | main
  | mapper (b : Turn)
  | reducer (b : Turn)

/-- The action of a turn. -/
def Pipeline.turn (P : Plant) (user : Sys → User) (s : Pipeline) : PipeTurn → PipeAct
  | .main =>
    .main (match s.main.at_ with
      | .inl (.sys e _) => mainAnswer P.disk (s.ended P) s.main.files s.toMain e
      | .inl (.write _ _ rest _) => .val (.count rest.length)
      | _ => .ok)
  | .mapper b => .mapper ((mapperCode P.mapper).turn user ⟨s.mapper, s.toMapper⟩ b)
  | .reducer b => .reducer ((reducerCode P.reducer).turn user ⟨s.reducer, s.toReducer⟩ b)

/-- No call of a child fails. -/
def PipeAct.ok : PipeAct → Bool
  | .main _ => true
  | .mapper a | .reducer a => a.ok

theorem calmPipe_turn {P : Plant} {user : Sys → User} (s : Pipeline) (b : PipeTurn)
    (hok : (s.turn P user b).ok = true) : CalmPipe P user s (s.turn P user b) := by
  cases b with
  | main => trivial
  | mapper b => exact calm_turn _ b hok
  | reducer b => exact calm_turn _ b hok

end MrLib
