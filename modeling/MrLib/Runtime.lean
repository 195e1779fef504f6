import MrLib.Sys

/-!
# The functions every process runs

The threads of `main`, of the mapper and of the reducer call `mr_log`, the queue operations and the two emit functions
`mapper_emit` and `reducer_emit`. A thread is a callee at one of its calls on top of the frame `f : F` of the function
that called it (`TLoc`); a frame is a place in `mapper_worker`, `mapper_process_main` and so on. `Client` gives the
code of these callers: the call a frame makes itself, and what it does when a call has come back.

`runtime` puts the callees and a client together as the code of the threads of one process. Results about the queue,
about `mr_log` or about the emits hold for every client.
-/

namespace MrLib

open Conc

/-! ## Emitting -/

/-- The places where `mapper_emit` and `reducer_emit` make a call; the error messages of `send_pair_to_reducer_fd` and
`send_result_to_main_fd` are logged at `writeLog`. -/
inductive EmitLoc
  | lock
  | lockLog (l : LogLoc)
  /-- Inside `write_n`: the rest of a chunk, and the chunks after it. -/
  | write (c : Bytes) (cs : List Bytes)
  | writeLog (l : LogLoc)
  | unlock (res : Int)
  | unlockLog (l : LogLoc)

def EmitLoc.call {T : Type} : EmitLoc → Call T Mtx Cv Sys
  | .lock => .mtxLock .stdout
  | .write c _ => .ext (.write stdoutFileno c)
  | .unlock _ => .mtxUnlock .stdout
  | .lockLog l | .writeLog l | .unlockLog l => .ext (.log l.call)

/-- What a process has written to its standard output, and `*arg->pairs_count` or `*arg->results_count`. -/
structure Stdout where
  out : Bytes
  sent : Nat

/-- The chunks left to write; when there is none, `send_...` returns 0 and the emit is counted. -/
def EmitLoc.send (o : Stdout) : List Bytes → EmitLoc × Stdout
  | [] => (.unlock 0, { o with sent := o.sent + 1 })
  | c :: cs => (.write c cs, o)

/-- The code of `mapper_emit` and `reducer_emit` for the message `m`, after each of their calls. -/
def EmitLoc.next (m : Msg) (o : Stdout) : EmitLoc → Ret Val → (EmitLoc ⊕ Int) × Stdout
  | .lock, .ok => (EmitLoc.send o (sendChunks m)).map .inl id
  | .lock, _ => (.inl (.lockLog .wait), o)
  | .lockLog l, r => ((l.next r).map .lockLog fun _ => -1, o)
  | .write c cs, .val (.count k) =>
    if c.length ≤ k then (EmitLoc.send { o with out := o.out ++ c } cs).map .inl id
    else (.inl (.write (c.drop k) cs), { o with out := o.out ++ c.take k })
  | .write _ _, _ => (.inl (.writeLog .wait), o)
  | .writeLog l, r => (.inl (match l.next r with | .inl l' => .writeLog l' | .inr _ => .unlock (-1)), o)
  | .unlock res, .ok => (.inr res, o)
  | .unlock _, _ => (.inl (.unlockLog .wait), o)
  | .unlockLog l, r => ((l.next r).map .unlockLog fun _ => -1, o)

/-! ## Threads -/

variable {T β μ F : Type} {es : Nat}

/-- What a function does next: it calls `mr_log`, a queue operation or an emit, makes a call itself, or returns. -/
inductive Next (β : Type) (es : Nat) (F : Type)
  | log (f : F)
  | push (x : Elem β es) (f : F)
  | pop (f : F)
  | close (f : F)
  | emit (m : Msg) (f : F)
  | own (f : F)
  | done (code : Int)

/-- What comes back to it: the result of `mr_log` or of an emit, of a queue operation, or of its own call. -/
inductive Back (β : Type)
  | log (r : Int)
  | emit (r : Int)
  | queue (r : QRet β)
  | own (r : Ret Val)

/-- A place in a thread: a callee at one of its calls, above the frame of its caller. -/
inductive TLoc (β : Type) (es : Nat) (F : Type)
  | absent
  | log (l : LogLoc) (f : F)
  | queue (q : QLoc β es) (f : F)
  | emit (m : Msg) (e : EmitLoc) (f : F)
  | own (f : F)
  | done (code : Int)

def Next.enter : Next β es F → TLoc β es F
  | .log f => .log .wait f
  | .push x f => .queue (.pushLock x) f
  | .pop f => .queue .popLock f
  | .close f => .queue .closeLock f
  | .emit m f => .emit m .lock f
  | .own f => .own f
  | .done c => .done c

/-- The calls a frame makes itself. -/
inductive OwnCall (T : Type)
  | thrdCreate (u : T)
  | thrdJoin (u : T)
  | sys (e : Sys)

def OwnCall.call : OwnCall T → Call T Mtx Cv Sys
  | .thrdCreate u => .thrdCreate u
  | .thrdJoin u => .thrdJoin u
  | .sys e => .ext e

/-- The code of the callers; `μ` is their memory, which the callees do not touch. -/
structure Client (T β : Type) (es : Nat) (μ F : Type) where
  call : F → OwnCall T
  back : T → F → Back β → μ → Next β es F × μ
  entry : T → Next β es F

/-- The memory of a process. -/
structure Mem (β μ : Type) where
  queue : Queue β
  stdout : Stdout
  user : μ

/-- The caller goes on. -/
def Client.resume (cl : Client T β es μ F) (t : T) (f : F) (b : Back β) (x : Mem β μ) : TLoc β es F × Mem β μ :=
  ((cl.back t f b x.user).1.enter, { x with user := (cl.back t f b x.user).2 })

def TLoc.call (cl : Client T β es μ F) : TLoc β es F → Call T Mtx Cv Sys
  | .absent => .absent
  | .log l _ => .ext (.log l.call)
  | .queue q _ => q.prim.call
  | .emit _ e _ => e.call
  | .own f => (cl.call f).call
  | .done c => .done c

def TLoc.next (cl : Client T β es μ F) (t : T) (l : TLoc β es F) (r : Ret Val) (x : Mem β μ) :
    TLoc β es F × Mem β μ :=
  match l with
  | .absent => (.absent, x)
  | .log l f =>
    match l.next r with
    | .inl l' => (.log l' f, x)
    | .inr c => cl.resume t f (.log c) x
  | .queue q f =>
    match q.next x.queue r with
    | (.inl q', Q) => (.queue q' f, { x with queue := Q })
    | (.inr b, Q) => cl.resume t f (.queue b) { x with queue := Q }
  | .emit m e f =>
    match e.next m x.stdout r with
    | (.inl e', o) => (.emit m e' f, { x with stdout := o })
    | (.inr c, o) => cl.resume t f (.emit c) { x with stdout := o }
  | .own f => cl.resume t f (.own r) x
  | .done c => (.done c, x)

/-- The code of the threads of a process. -/
def runtime (cl : Client T β es μ F) : Code T Mtx Cv Sys Val (Mem β μ) (TLoc β es F) where
  call := TLoc.call cl
  next := TLoc.next cl
  entry t := (cl.entry t).enter

/-! ## Sequential code in a thread -/

/-- A place in sequential code: the call that is under way, with what follows it. -/
inductive IoFrame (α : Type)
  | log (k : IoRet → IoProg α)
  /-- Inside `write_n`: the bytes left, of `n`. -/
  | write (fd n : Nat) (rest : Bytes) (k : IoRet → IoProg α)
  | sys (e : Sys) (k : IoRet → IoProg α)

variable {α : Type}

/-- Sequential code runs to its next call or to its end. `write_n` makes no call for no bytes. -/
def settle : IoProg α → IoFrame α ⊕ α
  | .ret a => .inr a
  | .call (.log _ _) k => .inl (.log k)
  | .call (.writeN _ []) k => settle (k (.int 0))
  | .call (.writeN fd (b :: bs)) k => .inl (.write fd (bs.length + 1) (b :: bs) k)
  | .call (.sys e) k => .inl (.sys e k)

/-- The code after a call. -/
def IoFrame.back : IoFrame α → Back β → IoFrame α ⊕ IoProg α
  | .log k, .log r => .inr (k (.int r))
  | .write fd n rest k, .own (.val (.count c)) =>
    if rest.length ≤ c then .inr (k (.int n)) else .inl (.write fd n (rest.drop c) k)
  | .write _ _ _ k, _ => .inr (k (.int (-1)))
  | .sys _ k, .own r => .inr (k (.sys r))
  | .log k, _ => .inr (k (.int (-1)))
  | .sys _ k, _ => .inr (k (.sys .fail))

/-- The call of a frame that is not in `mr_log`. -/
def IoFrame.sysCall : IoFrame α → Sys
  | .log _ => .stuck
  | .write fd _ rest _ => .write fd rest
  | .sys e _ => e

/-- Make the call. -/
def IoFrame.enter (emb : IoFrame α → F) : IoFrame α → Next β es F
  | .log k => .log (emb (.log k))
  | f => .own (emb f)

/-- The state of a process. -/
abbrev PState (T β : Type) (es : Nat) (μ F : Type) := State T Mtx Cv (Mem β μ) (TLoc β es F)

end MrLib
