import MrLib.Reducer.Table
import MrLib.Runtime

/-!
# The programs of the threads of a process

`mapper_process_main` and `mapper_worker`, `reducer_process_main` and `reducer_worker` are written as programs
(`ThreadProg`) that call `mr_log`, the queue, an emit, `thrd_create`, `thrd_join` or the system. A thread function is
cut at the heads of its loops over an unbounded input, the phases `Φ`; between two cuts a program ends with the next
phase or with the code that the thread function returns.

A few calls are none (`Shared.exec`): they read the memory that the threads share, or record in the history `Event`
what the program is about to do. They are executed together with the code around them. `ProcessCode.client` is the
resulting code of the threads, `ProcessCode.system` the process with its standard input.
-/

namespace MrLib

open Conc

/-- The threads of a mapper or reducer process. -/
inductive Tid
  | controller
  | worker (i : Nat)
  deriving DecidableEq

/-- The history of a process; `ω` are the elements of its queue. -/
inductive Event (ω : Type)
  /-- The controller has these elements to push: a line was received, or the table is complete. -/
  | came (xs : List ω)
  /-- `receive_pair_from_mapper` has returned 0 with this pair. -/
  | pair (token value : Bytes)
  /-- The user's function is called for `x` by the call `e`. -/
  | called (x : ω) (e : Sys)
  | failed (x : ω)
  /-- A field of `x` is read. -/
  | read (x : ω)
  | released (x : ω)
  /-- The loop of a worker has ended as `mr_queue_pop` returned `r`. -/
  | left (r : Int)

/-- What a thread function calls. -/
inductive PCall (ω : Type)
  | io (c : Io)
  | push (x : ω)
  | pop
  | close
  | emit (m : Msg)
  /-- `thrd_create(&threads[i], ...)` -/
  | create (i : Nat)
  /-- `thrd_join(threads[i], ...)` -/
  | join (i : Nat)
  /-- Not a call: the nodes in the memory are these, from here on. -/
  | share (heap : ω → Option Node)
  /-- Not a call: read the node at `x`. -/
  | load (x : ω)
  /-- Not a call. -/
  | note (e : Event ω)

/-- What comes back. -/
inductive PRet (ω : Type)
  | int (r : Int)
  | sys (r : Ret Val)
  /-- The result of `mr_queue_pop`, and the element. -/
  | popped (r : Int) (x : Option ω)
  /-- The code of the thread, or `none` if `thrd_join` has failed. -/
  | joined (code : Option Int)
  | node (n : Option Node)
  | done

abbrev ThreadProg (ω α : Type) := Prog (PCall ω) (PRet ω) α

/-- A piece of a thread function, which may leave it with a code. -/
abbrev Th (ω α : Type) := ExceptT Int (ThreadProg ω) α

variable {ω α β Φ : Type}

/-- Sequential code in a thread. -/
def inThread : IoProg α → ThreadProg ω α
  | .ret a => .ret a
  | .call c k => .call (.io c) fun
    | .int r => inThread (k (.int r))
    | .sys r => inThread (k (.sys r))
    | _ => inThread (k (.int (-1)))

instance : MonadLift (Prog Io IoRet) (ThreadProg ω) := ⟨inThread⟩

/-- Make a call, and read its answer. -/
def Th.call (c : PCall ω) (f : PRet ω → α) : Th ω α := ExceptT.lift (.call c fun r => .ret (f r))

/-- An `int` result. -/
def PRet.toInt : PRet ω → Int
  | .int r => r
  | _ => -1

/-- `mr_queue_push` -/
def mrQueuePush (x : ω) : Th ω Int := Th.call (.push x) PRet.toInt

/-- `mr_queue_close` -/
def mrQueueClose : Th ω Int := Th.call .close PRet.toInt

/-- `thrd_create`; 0 is `thrd_success`. -/
def thrdCreate (i : Nat) : Th ω Int := Th.call (.create i) PRet.toInt

/-- `thrd_join`: `none` is not `thrd_success`. -/
def thrdJoin (i : Nat) : Th ω (Option Int) :=
  Th.call (.join i) fun
    | .joined c => c
    | _ => none

/-- `mr_queue_pop`: its result, and what it has copied to `out_data`. -/
def mrQueuePop : Th ω (Int × Option ω) :=
  Th.call .pop fun
    | .popped r x => (r, x)
    | _ => (-1, none)

def note (e : Event ω) : Th ω Unit := Th.call (.note e) fun _ => ()

def share (heap : ω → Option Node) : Th ω Unit := Th.call (.share heap) fun _ => ()

def load (x : ω) : Th ω (Option Node) :=
  Th.call (.load x) fun
    | .node n => n
    | _ => none

/-- The user's function runs: it returns, or emits and goes on. -/
def runUser : User → ThreadProg ω Int
  | .ret r => .ret r
  | .emit m k => .call (.emit m) fun
    | .int r => runUser (k r)
    | _ => runUser (k (-1))

/-- The user's function is called by `e`. -/
def callUser (e : Sys) : Th ω Int := ExceptT.lift <|
  .call (.io (.sys e)) fun
    | .sys (.val (.user u)) => runUser u
    | _ => .ret (-1)

/-- `EXIT_FAILURE` -/
def exitFailure : Int := 1

/-- `EXIT_SUCCESS` -/
def exitSuccess : Int := 0

/-- `return code;` -/
def returns (code : Int) : Th ω α := throw code

/-- `SYSCALL_EXIT_CHECK` -/
def syscallExitCheck (r : Int) (command : Th ω Unit) : Th ω Unit :=
  if r = -1 then do
    command
    returns exitFailure
  else pure ()

/-! ## What the two controllers have in common -/

/-- `sizeof(thrd_t)` -/
def sizeofThrd : Nat := 8

/-- `sizeof(mapper_thread_arg_t)` and `sizeof(reducer_thread_arg_t)` -/
def sizeofThreadArg : Nat := 80

/-- `malloc(n * size)` -/
def mallocArray (n size : Nat) : IoProg (Option Bytes) := malloc (n * size % sizeT)

/-- The calls of `mr_queue_init`. -/
def mrQueueInitCalls (capacity elementSize : Nat) : IoProg Int := do
  if !(← allocates (.malloc (allocSize capacity elementSize))) then return -1
  if !(← allocates .mtxInit) then return -1
  if !(← allocates .cndInit) then return -1
  if !(← allocates .cndInit) then return -1
  return 0

/-- The number of entries that lie both in `threads` and in `t_args`. -/
def threadSlots (threads tArgs : Bytes) : Nat := min (threads.length / sizeofThrd) (tArgs.length / sizeofThreadArg)

/-- `thrd_join(threads[j], NULL);` for `todo` threads from `j` on. -/
def joinAll : Nat → Nat → Th ω Unit
  | _, 0 => pure ()
  | j, todo + 1 => do
    let _ ← thrdJoin j
    joinAll (j + 1) todo

/-- The loop that creates the workers: `todo` of them from `i` on. There are `slots` entries in the memory for `threads`
and `t_args`. -/
def createWorkers (slots : Nat) (failed : String) (cleanup : Th ω Unit) : Nat → Nat → Th ω Unit
  | _, 0 => pure ()
  | i, todo + 1 => do
    if slots ≤ i then
      let _ ← sysCall (.outside i)
    if (← thrdCreate i) ≠ 0 then
      mrLogError failed
      let _ ← mrQueueClose
      joinAll 0 i
      cleanup
      returns exitFailure
    createWorkers slots failed cleanup (i + 1) todo

/-- The loop that joins the workers: `todo` of them from `i` on. -/
def joinWorkers (failed exited : String) : Nat → Nat → Th ω Unit
  | _, 0 => pure ()
  | i, todo + 1 => do
    match ← thrdJoin i with
    | none =>
      mrLogError failed
      returns exitFailure
    | some threadRes =>
      if threadRes ≠ exitSuccess then
        let _ ← mrLogWarning exited
      joinWorkers failed exited (i + 1) todo

/-! ## The code of the threads -/

/-- What the threads of a process share besides the queue and the standard output. -/
structure Shared (ω : Type) where
  heap : ω → Option Node
  events : List (Tid × Event ω)

def Shared.empty : Shared ω := ⟨fun _ => none, []⟩

def Shared.record (m : Shared ω) (t : Tid) (e : Event ω) : Shared ω := { m with events := m.events ++ [(t, e)] }

/-- The calls that are none, made by `t`. -/
def Shared.exec (m : Shared ω) (t : Tid) : PCall ω → Option (PRet ω × Shared ω)
  | .share heap => some (.done, { m with heap := heap })
  | .load x => some (.node (m.heap x), m.record t (.read x))
  | .note e => some (.done, m.record t e)
  | _ => none

/-- A place in a thread function: the call under way, and what follows it. -/
structure PFrame (ω α : Type) where
  call : PCall ω
  next : PRet ω → ThreadProg ω α

/-- A program runs to its next call, or to its end. -/
def runOn (t : Tid) : ThreadProg ω α → Shared ω → (PFrame ω α ⊕ α) × Shared ω
  | .ret a, m => (.inr a, m)
  | .call c k, m =>
    match m.exec t c with
    | some (r, m') => runOn t (k r) m'
    | none => (.inl ⟨c, k⟩, m)

/-- The cell of an element. -/
def cell (x : ω) : Elem (Option ω) 1 := ⟨[some x], rfl⟩

/-- Make the call. -/
def PFrame.enter (f : PFrame ω α) : Next (Option ω) 1 (PFrame ω α) :=
  match f.call with
  | .io (.log _ _) => .log f
  | .push x => .push (cell x) f
  | .pop => .pop f
  | .close => .close f
  | .emit m => .emit m f
  | _ => .own f

/-- The calls a thread function makes itself. It calls `write_n` in an emit only. -/
def PFrame.own (f : PFrame ω α) : OwnCall Tid :=
  match f.call with
  | .io (.sys e) => .sys e
  | .create i => .thrdCreate (.worker i)
  | .join i => .thrdJoin (.worker i)
  | _ => .sys .stuck

/-- What a call has returned. -/
def PCall.answer : PCall ω → Back (Option ω) → PRet ω
  | .io _, .log r => .int r
  | .io _, .own r => .sys r
  | .push _, .queue q | .close, .queue q => .int q.res
  | .pop, .queue q =>
    .popped q.res (match q.out with
      | [some x] => some x
      | _ => none)
  | .emit _, .emit r => .int r
  | .create _, .own .ok => .int 0
  | .create _, _ => .int (-1)
  | .join _, .own (.code c) => .joined (some c)
  | .join _, _ => .joined none
  | _, _ => .done

/-- The place of a program that does something undefined. -/
def PFrame.stuck : PFrame ω (Except Int Φ) := ⟨.io (.sys .stuck), fun _ => .ret (.error exitFailure)⟩

/-- The thread functions of a process. -/
structure ProcessCode (ω Φ : Type) where
  /-- `..._process_main`, up to the head of its loop. -/
  main : Th ω Φ
  /-- `..._worker`, up to the head of its loop. -/
  worker : Th ω Φ
  /-- A piece from one cut to the next. -/
  body : Φ → Th ω Φ

/-- A thread goes on with a program. At the head of a loop it goes on to the first call in the body. -/
def ProcessCode.go (C : ProcessCode ω Φ) (t : Tid) (p : ThreadProg ω (Except Int Φ)) (m : Shared ω) :
    Next (Option ω) 1 (PFrame ω (Except Int Φ)) × Shared ω :=
  match runOn t p m with
  | (.inl f, m) => (f.enter, m)
  | (.inr (.error code), m) => (.done code, m)
  | (.inr (.ok ph), m) =>
    match runOn t (C.body ph).run m with
    | (.inl f, m) => (f.enter, m)
    | (.inr _, m) => (.own .stuck, m)

/-- The code of the controller and the workers. A worker makes its first call before it reads or records anything. -/
def ProcessCode.client (C : ProcessCode ω Φ) :
    Client Tid (Option ω) 1 (Shared ω) (PFrame ω (Except Int Φ)) where
  call := PFrame.own
  back t f b m := C.go t (f.next (f.call.answer b)) m
  entry t := (C.go t C.worker.run .empty).1

/-- A state of the threads of a process. -/
abbrev PoolState (ω Φ : Type) := PState Tid (Option ω) 1 (Shared ω) (PFrame ω (Except Int Φ))

/-! ## The process -/

/-- The arguments of `..._process_main`, `size_t` values. -/
structure PoolArgs where
  threads : Nat
  queueSize : Nat
  threads_pos : 0 < threads
  queueSize_pos : 0 < queueSize
  threads_lt : threads < sizeT
  queueSize_lt : queueSize < sizeT

/-- The memory for `threads` and `t_args`. -/
structure PoolArgs.Blocks (args : PoolArgs) (threads tArgs : Bytes) : Prop where
  threads : threads.length = args.threads * sizeofThrd % sizeT
  tArgs : tArgs.length = args.threads * sizeofThreadArg % sizeT

/-- There is an entry for every thread, if the size of `t_args`, the larger array, has not wrapped. -/
theorem PoolArgs.Blocks.slots {args : PoolArgs} {threads tArgs : Bytes} (h : args.Blocks threads tArgs)
    (hw : args.threads * sizeofThreadArg < sizeT) : threadSlots threads tArgs = args.threads := by
  have h8 : args.threads * sizeofThrd < sizeT := by
    simp only [sizeofThrd, sizeofThreadArg] at *
    omega
  rw [threadSlots, h.threads, h.tArgs, Nat.mod_eq_of_lt hw, Nat.mod_eq_of_lt h8, Nat.mul_div_cancel _ (by decide),
    Nat.mul_div_cancel _ (by decide), Nat.min_self]

/-- A process, and what is left of its standard input. -/
structure Hosted (ω Φ : Type) where
  threads : PoolState ω Φ
  stdin : Bytes

/-- The standard input after a call of the system, `none` if the call does not return this. A read returns at least
one byte unless the input has ended. -/
def serve (stdin : Bytes) : Sys → Ret Val → Option Bytes
  | .read _ n, .val (.bytes bs) =>
    if bs.isPrefixOf stdin ∧ bs.length ≤ n ∧ (bs = [] → stdin = [] ∨ n = 0) then some (stdin.drop bs.length) else none
  | e, r => if e.mayReturn (fun _ => .other) r then some stdin else none

/-- The standard input after a step. -/
def ProcessCode.serves (C : ProcessCode ω Φ) (s : Hosted ω Φ) : Act Tid Val → Option Bytes
  | .ret t r =>
    match (runtime C.client).call (s.threads.loc t) with
    | .ext e => serve s.stdin e r
    | _ => some s.stdin
  | _ => some s.stdin

/-- A step of the process. A push beyond the `room` elements for which there is memory is undefined, and the process
does not go on. -/
def ProcessCode.step (C : ProcessCode ω Φ) (room : Nat) (s : Hosted ω Φ) (a : Act Tid Val) : Option (Hosted ω Φ) :=
  match C.serves s a, (runtime C.client).step s.threads a with
  | some stdin, some s' => if s'.mem.queue.count ≤ room then some ⟨s', stdin⟩ else none
  | _, _ => none

/-- The process when `..._process_main` starts: the controller is the only thread, and the queue is as `mr_queue_init`
will leave it. -/
def ProcessCode.init (C : ProcessCode ω Φ) (capacity : Nat) (stdin : Bytes) : Hosted ω Φ where
  threads :=
    let start := C.go .controller C.main.run .empty
    { loc := fun t =>
        match t with
        | .controller => start.1.enter
        | .worker _ => .absent
      owner := fun _ => none
      asleep := fun _ => ∅
      woken := fun _ => ∅
      mem := ⟨mrQueueInit (List.replicate capacity none) capacity 1, ⟨[], 0⟩, start.2⟩ }
  stdin := stdin

/-- The elements of `size` bytes for which `mr_queue_init` has memory. -/
def PoolArgs.room (args : PoolArgs) (size : Nat) : Nat := allocSize args.queueSize size / size

/-- The process; the elements of its queue have `size` bytes. -/
def ProcessCode.system (C : ProcessCode ω Φ) (args : PoolArgs) (size : Nat) (stdin : Bytes) :
    Lts (Hosted ω Φ) (Act Tid Val) where
  init := C.init args.queueSize stdin
  step := C.step (args.room size)

/-! ## Schedules -/

/-- What calls return that do not fail; a call of a user's function runs `user`. -/
def answer (user : Sys → User) (stdin : Bytes) : Sys → Ret Val
  | .uninit n => .val (.bytes (List.replicate n 0))
  | .malloc n => .val (.bytes (List.replicate n 0))
  | .read _ n => .val (.bytes (stdin.take n))
  | .write _ bs => .val (.count bs.length)
  | .mapper line => .val (.user (user (.mapper line)))
  | .reducer token values => .val (.user (user (.reducer token values)))
  | _ => .ok

/-- A turn of a thread. -/
inductive Turn
  | go (t : Tid)
  | fail (t : Tid)
  /-- It signals, and `u` wakes up. -/
  | wake (t u : Tid)

/-- The action of a turn. -/
def ProcessCode.turn (C : ProcessCode ω Φ) (user : Sys → User) (s : Hosted ω Φ) : Turn → Act Tid Val
  | .fail t => .ret t .fail
  | .wake t u => .wake t u
  | .go t =>
    match (runtime C.client).call (s.threads.loc t) with
    | .ext e => .ret t (answer user s.stdin e)
    | .cndWait c _ => if t ∈ s.threads.woken c then .ret t .ok else .sleep t
    | _ => .ret t .ok

/-- `n` turns of `t`. -/
def turns (t : Tid) (n : Nat) : List Turn := List.replicate n (.go t)

/-- One worker, and room for one element. -/
def oneWorker : PoolArgs := ⟨1, 1, Nat.one_pos, Nat.one_pos, one_lt_sizeT, one_lt_sizeT⟩

theorem two_lt_sizeT : 2 < sizeT := by decide

/-- Two workers, and room for one element. -/
def twoThreads : PoolArgs := ⟨2, 1, Nat.two_pos, Nat.one_pos, two_lt_sizeT, one_lt_sizeT⟩

end MrLib
