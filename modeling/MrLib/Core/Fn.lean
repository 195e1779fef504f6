import MrLib.Sys

/-!
# C functions with early returns

`Fn α` is a piece of the body of a C function: it goes on with an `α`, or it leaves (`Leave`), by a `return` or by
`_exit`. The `_exit` with what `mapper_process_main` or `reducer_process_main` has returned in a forked child is kept apart
from the others.

A function that calls another is written with `within`: the callee, and what the caller does with its result. A
function with a loop is cut at the head of the loop, so a piece may also go on with a `MainPhase` of the program.
-/

namespace MrLib

open Conc

/-- How a function is left. -/
inductive Leave
  | ret (r : Int)
  | exit (code : Int)
  /-- `_exit(exit_code);` -/
  | processMain (child : Proc) (exitCode : Int)
  deriving DecidableEq

abbrev Fn (α : Type) := ExceptT Leave (Prog Io IoRet) α

variable {α : Type}

/-- No command. -/
def skip : Fn Unit := pure ()

/-- `return r;` -/
def ret (r : Int) : Fn α := throw (.ret r)

/-- `_exit(code);` -/
def exit (code : Int) : Fn α := throw (.exit code)

/-- `SYSCALL_RET_CHECK`, `SYSCALL_RET`, and the same test written out. -/
def syscallRetCheck (r : Int) (command : Fn Unit) : Fn Unit :=
  if r = -1 then do
    command
    ret (-1)
  else pure ()

/-- Call a function, and go on with its result. -/
def Fn.within (f : Fn α) (rest : Int → Fn α) : Fn α := ExceptT.mk do
  match ← f.run with
  | .ok a => return .ok a
  | .error (.ret r) => (rest r).run
  | .error l => return .error l

/-- Call a function without loops. -/
def Fn.call (f : Fn Int) : Fn Int := ExceptT.mk do
  match ← f.run with
  | .ok r | .error (.ret r) => return .ok r
  | .error l => return .error l

/-- `SYSCALL_RET_CHECK` of a function that goes on with an `α` when it does not return `-1`. -/
def Fn.check (f : Fn α) (command : Fn Unit) : Fn α := ExceptT.mk do
  match ← f.run with
  | .error (.ret _) => (do command; ret (-1) : Fn α).run
  | x => return x

/-! ## Calls -/

def close (fd : Nat) : IoProg Int := sysInt (.close fd)

/-- A sequence of `close`s whose results nobody looks at. -/
def closeAll : List Nat → IoProg Unit
  | [] => .ret ()
  | fd :: fds => do
    let _ ← close fd
    closeAll fds

/-- `for (uint8_t i = 0; i < 2; i++) { close(...[i]); ... }` -/
def closeBoth (ps : List (Nat × Nat)) : IoProg Unit := closeAll (ps.map Prod.fst ++ ps.map Prod.snd)

/-- A sequence of `kill`s and then of `waitpid`s whose results nobody looks at. -/
def terminate (pids : List Nat) : IoProg Unit := do
  killAll pids
  waitAll pids
where
  killAll : List Nat → IoProg Unit
    | [] => .ret ()
    | pid :: pids => do
      let _ ← sysCall (.kill pid)
      killAll pids
  waitAll : List Nat → IoProg Unit
    | [] => .ret ()
    | pid :: pids => do
      let _ ← sysCall (.waitpid pid)
      waitAll pids

/-! ## The phases of the program -/

/-- What `mr_start` has when it has spawned its children: its arguments, and in particular `mr->attr.log_file`, the ends
of the pipes and the children. -/
structure Job where
  inputPath : Bytes
  outputPath : Bytes
  mainToMapper : Nat × Nat
  reducerToMain : Nat × Nat
  mapperPid : Nat
  reducerPid : Nat
  deriving DecidableEq

/-- The caller of `send_file_to_mapper`. -/
inductive SendCaller
  /-- `send_input_to_mapper` -/
  | input
  /-- `send_files_in_directory_to_mapper`, with the entries that follow -/
  | directory (dirPath : Bytes) (entries : List Bytes)

/-- The arguments of `mr_start`; `none` is `NULL`. -/
structure StartArgs where
  /-- `mr->attr.log_file` -/
  mr : Option Bytes
  inputPath : Option Bytes
  outputPath : Option Bytes

/-- The places where `mr_start` and the functions it calls are cut, the heads of the loops. -/
inductive MainPhase
  /-- At the `getline` of `send_file_to_mapper`. -/
  | line (job : Job) (caller : SendCaller) (filePath : Bytes)
  /-- At the loop of `receive_output_from_reducer`, with what is in its `header`. -/
  | record (job : Job) (header : Bytes)

/-! ## Total correctness -/

section Wp

variable {S β : Type} {env : S → Io → IoRet → S → Prop} {Q : Except Leave α → S → Prop} {s : S}

/-- A sequence: what leaves in its first part has left. -/
theorem wp_fn_bind {f : Fn β} {k : β → Fn α} (h : f.run.Wp env (fun x s' => match x with
      | .ok b => (k b).run.Wp env Q s'
      | .error l => Q (.error l) s') s) : (f >>= k).run.Wp env Q s := by
  change (f.run >>= _ : IoProg (Except Leave α)).Wp env Q s
  rw [Prog.wp_bind]
  refine h.mono fun x s' hx => ?_
  cases x <;> exact hx

/-- A call of sequential code, and what follows it. -/
theorem wp_lift {p : IoProg β} {k : β → Fn α} (h : p.Wp env (fun b s' => (k b).run.Wp env Q s') s) :
    (liftM p >>= k : Fn α).run.Wp env Q s := by
  change ((p >>= fun b => Prog.ret (Except.ok b)) >>= _ : IoProg (Except Leave α)).Wp env Q s
  rw [Prog.wp_bind, Prog.wp_bind]
  exact h

/-- A call of sequential code, in some run. -/
theorem may_lift {p : IoProg β} {k : β → Fn α} (h : p.May env (fun b s' => (k b).run.May env Q s') s) :
    (liftM p >>= k : Fn α).run.May env Q s := by
  change ((p >>= fun b => Prog.ret (Except.ok b)) >>= _ : IoProg (Except Leave α)).May env Q s
  refine Prog.may_bind (Prog.may_bind (h.mono fun b s' hb => ?_))
  exact ⟨s', .ok b, .ret, hb⟩

/-- A sequence, in some run. -/
theorem may_fn_bind {f : Fn β} {k : β → Fn α} (h : f.run.May env (fun x s' => match x with
      | .ok b => (k b).run.May env Q s'
      | .error l => Q (.error l) s') s) : (f >>= k).run.May env Q s := by
  change (f.run >>= _ : IoProg (Except Leave α)).May env Q s
  refine Prog.may_bind (h.mono fun x s' hx => ?_)
  cases x with
  | ok b => exact hx
  | error l => exact ⟨s', .error l, .ret, hx⟩

/-- A checked call that does not fail. -/
theorem wp_check {p : IoProg Int} {command : Fn Unit} {k : Fn α}
    (h : p.Wp env (fun r s' => r ≠ -1 ∧ k.run.Wp env Q s') s) :
    (do syscallRetCheck (← p) command; k : Fn α).run.Wp env Q s := by
  refine wp_lift (h.mono fun r s' hr => ?_)
  rw [syscallRetCheck, if_neg hr.1]
  exact hr.2

/-- A checked call that does not fail, at the end. -/
theorem wp_check_last {p : IoProg Int} {command : Fn Unit} {Q : Except Leave Unit → S → Prop}
    (h : p.Wp env (fun r s' => r ≠ -1 ∧ Q (.ok ()) s') s) :
    (do syscallRetCheck (← p) command : Fn Unit).run.Wp env Q s := by
  refine wp_lift (h.mono fun r s' hr => ?_)
  rw [syscallRetCheck, if_neg hr.1]
  exact hr.2

end Wp

end MrLib
