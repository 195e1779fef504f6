import MrLib.Core.Code
import MrLib.Lib.Safe

/-!
# Partial correctness of code with early returns

The rules of `Safe` for the ways the code of `mr_start` is put together, and the calls that a piece of it makes
(`Only`). Sending the input and receiving the output only log, transfer bytes, allocate, look at files and use the two
`FILE`s (`Io.transfers`).
-/

namespace MrLib

open Conc Prog

variable {α β S : Type} {env : S → Io → IoRet → S → Prop} {I : S → Prop} {Q : Except Leave α → S → Prop} {s : S}

section Rules

variable {f : Fn β} {k : β → Fn α} {command : Fn Unit}

theorem safe_fn_bind (h : Safe env I f.run (fun x s' => match x with
      | .ok b => Safe env I (k b).run Q s'
      | .error l => Q (.error l) s') s) : Safe env I (f >>= k).run Q s := by
  change Safe env I (f.run >>= _ : IoProg (Except Leave α)) Q s
  refine safe_bind (h.mono fun x s' hI hx => ?_)
  cases x with
  | ok b => exact hx
  | error l => exact ⟨hI, hx⟩

theorem safe_lift {p : IoProg β} (h : Safe env I p (fun b s' => Safe env I (k b).run Q s') s) :
    Safe env I (liftM p >>= k : Fn α).run Q s := by
  change Safe env I ((p >>= fun b => Prog.ret (Except.ok b)) >>= _ : IoProg (Except Leave α)) Q s
  refine safe_bind (safe_bind (h.mono fun b s' hI hb => ?_))
  exact ⟨hI, hb⟩

/-- How an error path ends. -/
def Fails (Q : Except Leave α → S → Prop) : Except Leave Unit → S → Prop
  | .ok _, s => Q (.error (.ret (-1))) s
  | .error l, s => Q (.error l) s

/-- The test of a result: the error path, or what follows. -/
theorem safe_test {r : Int} {k : Fn α} (hfail : r = -1 → Safe env I command.run (Fails Q) s)
    (hk : r ≠ -1 → Safe env I k.run Q s) : Safe env I (do syscallRetCheck r command; k : Fn α).run Q s := by
  unfold syscallRetCheck
  split
  · rename_i hr
    refine safe_fn_bind (safe_fn_bind ((hfail hr).mono fun x s' hI hx => ?_))
    cases x with
    | ok _ => exact ⟨hI, hx⟩
    | error l => exact hx
  · rename_i hr
    exact hk hr

theorem safe_check {p : IoProg Int} {k : Fn α}
    (h : Safe env I p (fun r s' => (r = -1 → Safe env I command.run (Fails Q) s') ∧
      (r ≠ -1 → Safe env I k.run Q s')) s) :
    Safe env I (do syscallRetCheck (← p) command; k : Fn α).run Q s :=
  safe_lift (h.mono fun _ _ _ hr => safe_test hr.1 hr.2)

/-- The same test at the end of a function. -/
theorem safe_check_last {p : IoProg Int} {Q : Except Leave Unit → S → Prop}
    (h : Safe env I p (fun r s' => (r = -1 → Safe env I command.run (Fails Q) s') ∧ (r ≠ -1 → Q (.ok ()) s')) s) :
    Safe env I (do syscallRetCheck (← p) command : Fn Unit).run Q s := by
  refine safe_lift (h.mono fun r s' hI hr => ?_)
  unfold syscallRetCheck
  split
  · rename_i hr1
    refine safe_fn_bind ((hr.1 hr1).mono fun x s' hI hx => ?_)
    cases x with
    | ok _ => exact ⟨hI, hx⟩
    | error l => exact hx
  · rename_i hr1
    exact ⟨hI, hr.2 hr1⟩

theorem safe_within {f : Fn α} {rest : Int → Fn α} (h : Safe env I f.run (fun x s' => match x with
      | .error (.ret r) => Safe env I (rest r).run Q s'
      | x => Q x s') s) : Safe env I (f.within rest).run Q s := by
  change Safe env I (f.run >>= _ : IoProg (Except Leave α)) Q s
  refine safe_bind (h.mono fun x s' hI hx => ?_)
  rcases x with (r | c | ⟨child, c⟩) | a
  · exact hx
  · exact ⟨hI, hx⟩
  · exact ⟨hI, hx⟩
  · exact ⟨hI, hx⟩

theorem safe_call_fn {f : Fn Int} {k : Int → Fn α} (h : Safe env I f.run (fun x s' => match x with
      | .ok r | .error (.ret r) => Safe env I (k r).run Q s'
      | .error l => Q (.error l) s') s) : Safe env I (f.call >>= k).run Q s := by
  refine safe_fn_bind ?_
  change Safe env I (f.run >>= _ : IoProg (Except Leave Int)) _ s
  refine safe_bind (h.mono fun x s' hI hx => ?_)
  rcases x with (r | c | ⟨child, c⟩) | a <;> exact ⟨hI, hx⟩

theorem safe_checked {f : Fn α} (h : Safe env I f.run (fun x s' => match x with
      | .error (.ret _) => Safe env I command.run (Fails Q) s'
      | x => Q x s') s) : Safe env I (f.check command).run Q s := by
  change Safe env I (f.run >>= _ : IoProg (Except Leave α)) Q s
  refine safe_bind (h.mono fun x s' hI hx => ?_)
  rcases x with (r | c | ⟨child, c⟩) | a
  · refine safe_fn_bind (hx.mono fun x s'' hI hx => ?_)
    cases x with
    | ok _ => exact ⟨hI, hx⟩
    | error l => exact hx
  · exact ⟨hI, hx⟩
  · exact ⟨hI, hx⟩
  · exact ⟨hI, hx⟩

end Rules

/-! ## The calls of a piece -/

/-- A piece makes only calls that satisfy `P`. It goes on with what satisfies `R`, or it returns. -/
def Only (P : Io → Prop) (R : α → Prop) (f : Fn α) : Prop :=
  Calls P (fun x => match x with
    | .ok a => R a
    | .error l => ∃ r, l = .ret r) f.run

section Only

variable {P : Io → Prop} {R : α → Prop} {D : β → Prop} {f : Fn β} {k : β → Fn α} {command : Fn Unit}

theorem only_pure {a : α} (h : R a) : Only P R (pure a) := h

theorem only_ret (r : Int) : Only P R (ret r : Fn α) := ⟨r, rfl⟩

theorem Only.bind (hf : Only P D f) (hk : ∀ b, D b → Only P R (k b)) : Only P R (f >>= k) := by
  change Calls P _ (f.run >>= _ : IoProg (Except Leave α))
  refine Calls.bind hf fun x hx => ?_
  cases x with
  | ok b => exact hk b hx
  | error l => exact hx

theorem only_lift {p : IoProg β} {k : β → Fn α} (hp : Calls P Any p) (hk : ∀ b, Only P R (k b)) :
    Only P R (liftM p >>= k) := by
  refine Only.bind (D := Any) ?_ fun b _ => hk b
  change Calls P _ (p >>= fun b => Prog.ret (Except.ok b) : IoProg (Except Leave β))
  exact hp.bind fun _ _ => trivial

theorem only_test {r : Int} {k : Fn α} (hc : Only P Any command) (hk : Only P R k) :
    Only P R (do syscallRetCheck r command; k : Fn α) := by
  refine Only.bind (D := Any) ?_ fun _ _ => hk
  unfold syscallRetCheck
  split
  · exact hc.bind fun _ _ => only_ret _
  · exact only_pure trivial

theorem only_check {p : IoProg Int} {k : Fn α} (hp : Calls P Any p) (hc : Only P Any command) (hk : Only P R k) :
    Only P R (do syscallRetCheck (← p) command; k : Fn α) := only_lift hp fun _ => only_test hc hk

theorem only_check_last {p : IoProg Int} (hp : Calls P Any p) (hc : Only P Any command) :
    Only P Any (do syscallRetCheck (← p) command : Fn Unit) := by
  refine only_lift hp fun r => ?_
  unfold syscallRetCheck
  split
  · exact hc.bind fun _ _ => only_ret _
  · exact only_pure trivial

theorem Only.within {f : Fn α} {rest : Int → Fn α} (hf : Only P R f) (hr : ∀ r, Only P R (rest r)) :
    Only P R (f.within rest) := by
  change Calls P _ (f.run >>= _ : IoProg (Except Leave α))
  refine Calls.bind hf fun x hx => ?_
  cases x with
  | ok a => exact hx
  | error l =>
    obtain ⟨r, rfl⟩ := hx
    exact hr r

theorem Only.call {f : Fn Int} {k : Int → Fn α} (hf : Only P Any f) (hk : ∀ r, Only P R (k r)) :
    Only P R (f.call >>= k) := by
  refine Only.bind (D := Any) ?_ fun r _ => hk r
  change Calls P _ (f.run >>= _ : IoProg (Except Leave Int))
  refine Calls.bind hf fun x hx => ?_
  cases x with
  | ok a => exact trivial
  | error l =>
    obtain ⟨r, rfl⟩ := hx
    exact trivial

/-- A command that goes on. -/
def Goes (P : Io → Prop) (command : Fn Unit) : Prop := Calls P (fun x => x = .ok ()) command.run

theorem Goes.only (h : Goes P command) : Only P Any command := by
  refine Calls.mono (fun _ h => h) (fun x hx => ?_) h
  obtain rfl := hx
  exact trivial

theorem Goes.mono {P' : Io → Prop} (hP : ∀ c, P c → P' c) (h : Goes P command) : Goes P' command :=
  Calls.mono hP (fun _ h => h) h

theorem goes_skip : Goes P skip := rfl

theorem goes_lift {p : IoProg Unit} (hp : Calls P Any p) : Goes P (liftM p) := by
  change Calls _ _ (p >>= fun b => Prog.ret (Except.ok b) : IoProg (Except Leave Unit))
  exact hp.bind fun _ _ => rfl

theorem Goes.seq {c c' : Fn Unit} (h : Goes P c) (h' : Goes P c') : Goes P (do c; c') := by
  change Calls _ _ (c.run >>= _ : IoProg (Except Leave Unit))
  refine Calls.bind h fun x hx => ?_
  obtain rfl := hx
  exact h'

/-- A call whose result nobody looks at, before a command. -/
theorem Goes.ignore {p : IoProg Int} {c : Fn Unit} (hp : Calls P Any p) (h : Goes P c) :
    Goes P (do let _ ← p; c) := by
  change Calls _ _ ((p >>= fun b => Prog.ret (Except.ok b)) >>= _ : IoProg (Except Leave Unit))
  have hok : Calls P (fun x => ∃ b, x = .ok b) (p >>= fun b => Prog.ret (Except.ok b) : IoProg (Except Leave Int)) :=
    hp.bind fun b _ => ⟨b, rfl⟩
  refine hok.bind fun x hx => ?_
  obtain ⟨b, rfl⟩ := hx
  exact h

end Only

/-! ## Transfers -/

/-- A call that neither makes or releases a descriptor, a process or a semaphore, nor waits. -/
def Io.transfers : Io → Bool
  | .log _ _ | .writeN _ _ => true
  | .sys e =>
    match e with
    | .uninit _ | .read _ _ | .malloc _ | .stat _ | .scandir _ | .getline | .fwrite _ | .ferror _ => true
    | .fopen f _ | .fclose f => f != .log
    | _ => false

/-- A piece that only transfers. -/
abbrev Transfers (R : α → Prop) (f : Fn α) : Prop := Only (fun c => c.transfers = true) R f

section Transfers

variable {R : α → Prop}

theorem calls_lineHeader (eof : Bool) (n : Nat) : Calls (fun c => c.transfers = true) Any (lineHeader eof n) :=
  Calls.bind (calls_uninit rfl) fun _ _ => trivial

theorem transfers_skip : Transfers Any skip := only_pure trivial

theorem transfers_logged {format : String} {k : Fn α} (hk : Transfers R k) :
    Transfers R (do mrLogError format; k : Fn α) := only_lift (calls_mrLogError rfl) fun _ => hk

theorem transfers_error (format : String) : Transfers Any (liftM (mrLogError format) : Fn Unit) := by
  change Calls (fun c => c.transfers = true) _
    (mrLogError format >>= fun b => Prog.ret (Except.ok b) : IoProg (Except Leave Unit))
  exact Calls.bind (calls_mrLogError rfl) fun _ _ => trivial

/-- The error path of `send_file_to_mapper`: it logs and closes the file. -/
theorem transfers_sendFailed (format : String) : Transfers Any (do
    mrLogError format
    let _ ← sysInt (.fclose .input) : Fn Unit) :=
  transfers_logged (only_lift (calls_sysInt rfl) fun _ => only_pure trivial)

theorem transfers_isDirectory (path : Bytes) : Transfers Any (isDirectory path) := by
  refine only_lift (calls_sysCall rfl) fun r => ?_
  split
  · exact only_pure trivial
  · exact transfers_logged (only_ret _)

theorem transfers_sendFileOpen (writeFd : Nat) (filePath : Bytes) :
    Transfers Any (sendFileOpen writeFd filePath) := by
  refine only_check (calls_mrLog rfl) transfers_skip ?_
  refine only_check (calls_sysInt rfl) (transfers_error _) ?_
  refine only_check (calls_writeN rfl) (transfers_sendFailed _) ?_
  exact only_check_last (calls_writeN rfl) (transfers_sendFailed _)

theorem transfers_sendFileLine (writeFd : Nat) : Transfers Any (sendFileLine writeFd) := by
  refine only_lift (calls_sysCall rfl) fun r => ?_
  split
  · refine only_lift (calls_lineHeader _ _) fun header => ?_
    refine only_check (calls_writeN rfl) (transfers_sendFailed _) ?_
    split
    · exact only_check (calls_writeN rfl) (transfers_sendFailed _) (only_pure trivial)
    · exact only_pure trivial
  · exact only_pure trivial

theorem transfers_sendFileEnd (writeFd : Nat) : Transfers Any (sendFileEnd writeFd) := by
  refine only_check (calls_sysInt rfl) (transfers_sendFailed _) ?_
  refine only_lift (calls_lineHeader _ _) fun header => ?_
  refine only_check (calls_writeN rfl) (transfers_sendFailed _) ?_
  refine only_check (calls_sysInt rfl) (transfers_error _) ?_
  exact only_check_last (calls_mrLog rfl) transfers_skip

/-- At the head of the loop of `send_file_to_mapper`, in the same job. -/
abbrev Keeps (job : Job) : MainPhase → Prop := fun ph => ∃ caller filePath, ph = .line job caller filePath

theorem transfers_sendFileLoop (job : Job) (caller : SendCaller) (filePath : Bytes) :
    Transfers (Keeps job) (sendFileLoop job caller filePath) := by
  refine (transfers_sendFileLine _).bind fun more _ => ?_
  split
  · exact only_pure ⟨_, _, rfl⟩
  · exact (transfers_sendFileEnd _).bind fun _ _ => only_ret _

theorem transfers_sendFileToMapper (job : Job) (caller : SendCaller) (filePath : Bytes) :
    Transfers (Keeps job) (sendFileToMapper job caller filePath) :=
  (transfers_sendFileOpen _ _).bind fun _ _ => only_pure ⟨_, _, rfl⟩

theorem transfers_sendEntries (job : Job) (dirPath : Bytes) :
    ∀ entries, Transfers (Keeps job) (sendEntries job dirPath entries)
  | [] => only_check (calls_mrLog rfl) transfers_skip (only_ret _)
  | name :: entries => by
    have ih := transfers_sendEntries job dirPath entries
    rw [sendEntries]
    split
    · exact ih
    · refine (transfers_isDirectory _).call fun isDir => only_test (transfers_error _) ?_
      split
      · exact only_lift (calls_mrLog rfl) fun _ => ih
      · exact (transfers_sendFileToMapper _ _ _).within fun r => only_test (transfers_error _) ih

theorem transfers_sentFile (job : Job) (dirPath : Bytes) (entries : List Bytes) (r : Int) :
    Transfers (Keeps job) (sentFile job dirPath entries r) :=
  only_test (transfers_error _) (transfers_sendEntries _ _ _)

theorem transfers_scan (job : Job) (dirPath : Bytes) :
    Transfers (Keeps job) (sendFilesInDirectoryToMapper job dirPath) := by
  refine only_check (calls_mrLog rfl) transfers_skip ?_
  refine only_lift (calls_sysCall rfl) fun r => ?_
  split
  · exact only_check (calls_mrLog rfl) transfers_skip (transfers_sendEntries _ _ _)
  · exact transfers_logged (only_ret _)

theorem transfers_sentInput (job : Job) (r : Int) : Transfers (Keeps job) (sentInput r) :=
  only_test transfers_skip (only_check (calls_mrLog rfl) transfers_skip (only_ret _))

/-- `send_input_to_mapper` -/
theorem transfers_sendInputToMapper (job : Job) : Transfers (Keeps job) (sendInputToMapper job) := by
  refine (transfers_isDirectory _).call fun isDir => only_test transfers_skip ?_
  refine only_check (calls_mrLog rfl) transfers_skip ?_
  split
  · exact (transfers_sendFileToMapper _ _ _).within (transfers_sentInput _)
  · exact (transfers_scan _ _).within (transfers_sentInput _)

theorem transfers_caller {job : Job} {f : Fn MainPhase} (hf : Transfers (Keeps job) f) (caller : SendCaller) :
    Transfers (Keeps job) (caller.within job f) := by
  cases caller with
  | input => exact hf.within (transfers_sentInput _)
  | directory dirPath entries => exact (hf.within (transfers_sentFile _ _ _)).within (transfers_sentInput _)

theorem transfers_outputFailed (format : String) : Transfers R (outputFailed format : Fn α) :=
  transfers_logged (only_lift (calls_sysInt rfl) fun _ => only_ret _)

/-- At the loop of `receive_output_from_reducer`, in the same job. -/
abbrev KeepsReceiving (job : Job) : MainPhase → Prop := fun ph => ∃ header, ph = .record job header

/-- `receive_output_from_reducer`, up to its loop -/
theorem transfers_receiveOutput (job : Job) : Transfers (KeepsReceiving job) (receiveOutputFromReducer job) := by
  refine only_check (calls_mrLog rfl) transfers_skip ?_
  refine only_check (calls_sysInt rfl) (transfers_error _) ?_
  exact only_lift (calls_uninit rfl) fun header => only_pure ⟨header, rfl⟩

/-- A part of a record that is read into a block and written to the file. -/
theorem transfers_readWrite (fd n : Nat) (block : Bytes) (format format' : String) : Transfers Any (do
    match ← readN fd n with
    | none => outputFailed format
    | some bs => syscallRetCheck (← sysInt (.fwrite (fill block bs))) (outputFailed format') : Fn Unit) := by
  refine only_lift (calls_readN fun _ => rfl) fun r => ?_
  split
  · exact transfers_outputFailed _
  · exact only_check_last (calls_sysInt rfl) (transfers_outputFailed _)

theorem transfers_receiveRecordToken (fd n : Nat) : Transfers Any (receiveRecordToken fd n) := by
  unfold receiveRecordToken
  split
  · refine only_lift (calls_malloc rfl) fun r => ?_
    split
    · exact transfers_outputFailed _
    · exact transfers_readWrite _ _ _ _ _
  · exact only_pure trivial

theorem transfers_receiveRecordResult (fd n : Nat) : Transfers Any (receiveRecordResult fd n) := by
  refine only_lift (calls_malloc rfl) fun r => ?_
  split
  · split
    · exact transfers_outputFailed _
    · exact only_pure trivial
  · split
    · exact transfers_readWrite _ _ _ _ _
    · exact only_pure trivial

theorem transfers_receiveOutputEnd : Transfers Any receiveOutputEnd :=
  only_check (calls_sysInt rfl) (transfers_error _) (only_check_last (calls_mrLog rfl) transfers_skip)

/-- One iteration of the loop of `receive_output_from_reducer`. -/
theorem transfers_receiveRecord (job : Job) (header : Bytes) :
    Transfers (KeepsReceiving job) (receiveRecord job header) := by
  refine only_lift (calls_readN fun _ => rfl) fun r => ?_
  split
  · exact transfers_outputFailed _
  · exact transfers_receiveOutputEnd.bind fun _ _ => only_ret _
  · refine only_check (calls_sysInt rfl) (transfers_outputFailed _) ?_
    refine (transfers_receiveRecordToken _ _).bind fun _ _ => ?_
    refine only_check (calls_sysInt rfl) (transfers_outputFailed _) ?_
    exact (transfers_receiveRecordResult _ _).bind fun _ _ => only_pure ⟨_, rfl⟩

end Transfers

end MrLib
