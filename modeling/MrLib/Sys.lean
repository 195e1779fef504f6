import MrLib.Lib.BoundedStack
import MrLib.Lib.Safe
import MrLib.Log
import MrLib.Protocol.Message

/-!
# The calls of the program

`Sys` are the calls that leave a process, to the operating system, to the C library or to a user callback, and `Val`
the values they return. Code that only makes such calls and `mr_log`, one after the other, is a program over `Io`.
-/

namespace MrLib

open Conc

/-- `mr_file_line_t` -/
structure FileLine where
  fileName : Bytes
  lineNumber : Nat
  line : Bytes
  deriving DecidableEq

/-- What a user callback does: it returns, or emits and goes on with the result of the emit. -/
inductive User
  | ret (r : Int)
  | emit (m : Msg) (k : Int → User)

/-- The pipes. -/
inductive PipeId
  | mainToMapper
  | mapperToReducer
  | reducerToMain
  deriving DecidableEq

/-- The processes. -/
inductive Proc
  | main
  | mapper
  | reducer
  deriving DecidableEq

/-- How a process ended, as `waitpid` reports it. -/
inductive Status
  | exited (code : Int)
  | signaled (sig : Nat)
  | other
  deriving DecidableEq

/-- The `FILE`s of the main process. -/
inductive File
  | log
  | input
  | output
  deriving DecidableEq

/-- `STDOUT_FILENO` -/
def stdoutFileno : Nat := 1

/-- `STDIN_FILENO` -/
def stdinFileno : Nat := 0

/-- The calls that are not on mutexes, condition variables or threads. -/
inductive Sys
  | log (c : LogCall)
  /-- Not a call: the contents of `size` bytes of an uninitialised variable. -/
  | uninit (size : Nat)
  /-- Not a call: the program does something undefined, or loops for ever; it never goes on. -/
  | stuck
  /-- Not a call: the entry `i` of an array is written, which is not in the memory of the array; like `stuck`. -/
  | outside (i : Nat)
  | read (fd n : Nat)
  | write (fd : Nat) (bs : Bytes)
  | malloc (size : Nat)
  | realloc (size : Nat)
  | mtxInit
  | cndInit
  /-- The user's mapper is called. -/
  | mapper (l : FileLine)
  /-- The user's reducer is called. -/
  | reducer (token : Bytes) (values : List Bytes)
  /-- The user of a queue decides which operation to call. -/
  | choose
  | pipe (p : PipeId)
  | fork (child : Proc)
  /-- `mapper_process_main` or `reducer_process_main`, which runs until the process may exit. -/
  | processMain (child : Proc)
  | close (fd : Nat)
  | dup2 (fd newfd : Nat)
  | kill (pid : Nat)
  | waitpid (pid : Nat)
  | stat (path : Bytes)
  | scandir (path : Bytes)
  | fopen (f : File) (path : Bytes)
  /-- `getline` on the input file. -/
  | getline
  /-- `fwrite` to the output file. -/
  | fwrite (bs : Bytes)
  | ferror (f : File)
  | fclose (f : File)
  | semOpen
  | semClose
  | semUnlink

/-- The program does not go on. -/
def Sys.undefined : Sys → Bool
  | .stuck | .outside _ => true
  | _ => false

/-- The values these calls return. -/
inductive Val
  | count (n : Nat)
  | bytes (bs : Bytes)
  | user (u : User)
  | op (o : BoundedStack.Op Bytes)
  | fds (r w : Nat)
  | pid (n : Nat)
  | status (st : Status)
  | isDir (b : Bool)
  | names (ns : List Bytes)
  | code (exitCode : Int)

/-- What a call may return; `ends pid` is how the process `pid` ends. An allocation of more than `PTRDIFF_MAX` bytes is
refused. -/
def Sys.mayReturn (ends : Nat → Status) : Sys → Ret Val → Bool
  | .uninit n, .val (.bytes block) => block.length = n
  | .mapper _, .val (.user _) | .reducer _ _, .val (.user _) | .choose, .val (.op _) => true
  | .processMain _, .val (.code _) => true
  | .uninit _, _ | .stuck, _ | .outside _, _ | .mapper _, _ | .reducer _ _, _ | .choose, _ | .processMain _, _ => false
  | _, .fail => true
  | .read _ n, .val (.bytes bs) => bs.length ≤ n
  | .write _ bs, .val (.count k) => k ≤ bs.length
  | .malloc n, .val (.bytes block) => block.length = n ∧ n ≤ ptrdiffMax
  | .realloc n, .ok => n ≤ ptrdiffMax
  | .getline, .val (.bytes bs) => bs ≠ []
  | .pipe _, .val (.fds _ _) | .fork _, .val (.pid _) | .stat _, .val (.isDir _) | .scandir _, .val (.names _) => true
  | .waitpid pid, .val (.status status) => status = ends pid
  | .log _, .ok | .mtxInit, .ok | .cndInit, .ok | .close _, .ok | .dup2 _ _, .ok | .kill _, .ok => true
  | .fopen _ _, .ok | .fwrite _, .ok | .ferror _, .ok | .fclose _, .ok => true
  | .semOpen, .ok | .semClose, .ok | .semUnlink, .ok => true
  | _, _ => false

/-! ## Sequential code -/

/-- The levels of a log line. -/
inductive Level
  | info
  | warning
  | error
  deriving DecidableEq

/-- A call of sequential code: of `mr_log`, of `write_n`, or one that leaves the process. -/
inductive Io
  | log (level : Level) (format : String)
  | writeN (fd : Nat) (bs : Bytes)
  | sys (e : Sys)

/-- What it returns. -/
inductive IoRet
  | int (r : Int)
  | sys (r : Ret Val)

/-- Sequential code with result `α`. -/
abbrev IoProg (α : Type) := Prog Io IoRet α

/-- `mr_log` -/
def mrLog (level : Level) (format : String) : IoProg Int :=
  .call (.log level format) fun
    | .int r => .ret r
    | .sys _ => .ret (-1)

/-- `mr_log_info` -/
def mrLogInfo (format : String) : IoProg Int := mrLog .info format

/-- `mr_log_warning` -/
def mrLogWarning (format : String) : IoProg Int := mrLog .warning format

/-- `mr_log_error`, whose result no caller looks at. -/
def mrLogError (format : String) : IoProg Unit := do
  let _ ← mrLog .error format

/-- `write_n` -/
def writeN (fd : Nat) (bs : Bytes) : IoProg Int :=
  .call (.writeN fd bs) fun
    | .int r => .ret r
    | .sys _ => .ret (-1)

def sysCall (e : Sys) : IoProg (Ret Val) :=
  .call (.sys e) fun
    | .sys r => .ret r
    | .int _ => .ret .fail

/-- A call that returns 0, or `-1` when it fails. -/
def sysInt (e : Sys) : IoProg Int :=
  .call (.sys e) fun
    | .sys .fail | .int _ => .ret (-1)
    | .sys _ => .ret 0

/-- `malloc`: the block with what is in it, or `NULL`. -/
def malloc (size : Nat) : IoProg (Option Bytes) :=
  .call (.sys (.malloc size)) fun
    | .sys (.val (.bytes block)) => .ret (some block)
    | _ => .ret none

/-- A call that allocates `size` bytes whose old contents do not matter; `false` is `NULL`. -/
def allocates (e : Sys) : IoProg Bool :=
  .call (.sys e) fun
    | .sys .fail => .ret false
    | _ => .ret true

/-- An uninitialised variable of `size` bytes. -/
def uninit (size : Nat) : IoProg Bytes :=
  .call (.sys (.uninit size)) fun
    | .sys (.val (.bytes block)) => .ret block
    | _ => .ret []

/-! ## The calls of sequential code -/

/-- Any result. -/
abbrev Any {α : Type} : α → Prop := fun _ => True

section

variable {P : Io → Prop}

theorem calls_sysInt {e : Sys} (he : P (.sys e)) : (sysInt e).Calls P Any := by
  refine ⟨he, fun r => ?_⟩
  rcases r with r | r | r | r <;> exact trivial

theorem calls_sysCall {e : Sys} (he : P (.sys e)) : (sysCall e).Calls P Any := by
  refine ⟨he, fun r => ?_⟩
  cases r <;> exact trivial

theorem calls_mrLog {level : Level} {format : String} (hl : P (.log level format)) :
    (mrLog level format).Calls P Any := by
  refine ⟨hl, fun r => ?_⟩
  cases r <;> exact trivial

theorem calls_mrLogError {format : String} (hl : P (.log .error format)) : (mrLogError format).Calls P Any :=
  (calls_mrLog hl).bind fun _ _ => trivial

theorem calls_writeN {fd : Nat} {bs : Bytes} (hw : P (.writeN fd bs)) : (writeN fd bs).Calls P Any := by
  refine ⟨hw, fun r => ?_⟩
  cases r <;> exact trivial

theorem calls_uninit {size : Nat} (hu : P (.sys (.uninit size))) : (uninit size).Calls P Any := by
  refine ⟨hu, fun r => ?_⟩
  dsimp only
  split <;> exact trivial

theorem calls_malloc {size : Nat} (hm : P (.sys (.malloc size))) : (malloc size).Calls P Any := by
  refine ⟨hm, fun r => ?_⟩
  dsimp only
  split <;> exact trivial

theorem calls_allocates {e : Sys} (he : P (.sys e)) : (allocates e).Calls P Any := by
  refine ⟨he, fun r => ?_⟩
  dsimp only
  split <;> exact trivial

end

end MrLib
