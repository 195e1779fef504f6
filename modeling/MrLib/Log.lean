import MrLib.Queue.Code

/-!
# Logging of `log.c`

`mr_log` is a run through the locations `LogLoc`: it takes the log semaphore, asks for the time, writes the line with
three stdio calls, flushes it and posts the semaphore. Every failing call posts the semaphore and returns `-1`, except
that a failing `fflush` posts it and goes on to post it again.

The text of a line goes to the log file only, so the locations do not carry it.
-/

namespace MrLib

open Conc

/-- The calls `mr_log` makes. -/
inductive LogCall
  | semWait
  | time
  | fprintf
  | vfprintf
  | fputc
  | fflush
  | semPost
  deriving DecidableEq

/-- The places where `mr_log` makes a call. -/
inductive LogLoc
  | wait
  | time
  | fprintf
  | vfprintf
  | fputc
  | fflush
  /-- `sem_post` after a failing `fflush`; there is no `return` after it. -/
  | postFlush
  | post
  /-- `sem_post(log->sem); return -1;` -/
  | postFailed
  deriving DecidableEq

def LogLoc.call : LogLoc → LogCall
  | .wait => .semWait
  | .time => .time
  | .fprintf => .fprintf
  | .vfprintf => .vfprintf
  | .fputc => .fputc
  | .fflush => .fflush
  | .postFlush | .post | .postFailed => .semPost

variable {V : Type}

/-- The code of `mr_log` after each of its calls. -/
def LogLoc.next : LogLoc → Ret V → LogLoc ⊕ Int
  | .wait, .fail => .inr (-1)
  | .wait, _ => .inl .time
  | .time, .fail => .inl .postFailed
  | .time, _ => .inl .fprintf
  | .fprintf, .fail => .inl .postFailed
  | .fprintf, _ => .inl .vfprintf
  | .vfprintf, .fail => .inl .postFailed
  | .vfprintf, _ => .inl .fputc
  | .fputc, .fail => .inl .postFailed
  | .fputc, _ => .inl .fflush
  | .fflush, .fail => .inl .postFlush
  | .fflush, _ => .inl .post
  | .postFlush, _ => .inl .post
  | .post, .fail => .inr (-1)
  | .post, _ => .inr 0
  | .postFailed, _ => .inr (-1)

end MrLib
