import MrLib.Lib.Walk
import MrLib.Protocol.Directory
import MrLib.Protocol.ResultStream

/-!
# The main process at work

What `mr_start` does when it has its children, in a run in which no call fails (`workEnv`): it sends the input, closes
the pipe to the mapper, receives the output and waits for both children (`safe_mrStartWork`, `safe_mrStartBlock`). The
pipe from the reducer may carry anything; if it carries results, these are in the output file at the end.
-/

namespace MrLib

open Conc Prog

/-! ## The file system -/

/-- What the main process finds at the paths it is given, and what `scandir` lists there. -/
structure Disk where
  find : Bytes → Option PathNode
  list : Bytes → List Bytes

/-- The file at a path: the path and the contents. -/
def Disk.file? (d : Disk) (path : Bytes) : Option (Bytes × Bytes) :=
  match d.find path with
  | some (.file c) => some (path, c.bytes)
  | _ => none

/-- The file that is sent for a name in a directory. -/
def Disk.entry? (d : Disk) (dirPath name : Bytes) : Option (Bytes × Bytes) :=
  if name = [46] ∨ name = [46, 46] then none else d.file? (fullPath dirPath name)

/-- The files of the input. -/
def Disk.input (d : Disk) (inputPath : Bytes) : List (Bytes × Bytes) :=
  if d.find inputPath = some .dir then (d.list inputPath).filterMap (d.entry? inputPath)
  else (d.file? inputPath).toList

/-- The files that follow the one that is being sent. -/
def SendCaller.todo (d : Disk) : SendCaller → List (Bytes × Bytes)
  | .input => []
  | .directory dirPath entries => entries.filterMap (d.entry? dirPath)

/-! ## The calls -/

/-- What the main process has: what `getline` has not read of the input file, what it has written to the mapper and
whether it has closed that pipe, what is in the output file, and the children it has waited for. -/
structure MainFiles where
  rest : Bytes
  out : Bytes
  closed : Bool
  file : Bytes
  waited : List Nat

def MainFiles.start : MainFiles := ⟨[], [], false, [], []⟩

/-- What `fork` returns for a child. -/
def Job.pid (job : Job) : Proc → Nat
  | .main => 0
  | .mapper => job.mapperPid
  | .reducer => job.reducerPid

/-- What it has, and what is left in the pipe from the reducer. -/
abbrev MainView : Type := MainFiles × Bytes

/-- The calls that leave the process, when none fails: what it has after the call, and what is left in the pipe from the
reducer. `none` if the call does not return this. `ended` are the children that have ended, with how they have. -/
def MainFiles.serve (d : Disk) (job : Job) (ended : Nat → Option Status) (m : MainFiles) (pipe : Bytes) :
    Sys → Ret Val → Option MainView
  | .stat path, .val (.isDir b) =>
    match d.find path with
    | some node => if b = decide (node = .dir) then some (m, pipe) else none
    | none => none
  | .scandir path, .val (.names ns) => if ns = d.list path then some (m, pipe) else none
  | .fopen .input path, .ok =>
    match d.find path with
    | some (.file c) => some ({ m with rest := c.bytes }, pipe)
    | _ => none
  | .fopen .output path, .ok => if path = job.outputPath then some ({ m with file := [] }, pipe) else none
  | .getline, .fail => if m.rest = [] then some (m, pipe) else none
  | .getline, .val (.bytes line) =>
    if m.rest ≠ [] ∧ line = nextLine m.rest then some ({ m with rest := afterLine m.rest }, pipe) else none
  | .fwrite bs, .ok => some ({ m with file := m.file ++ bs }, pipe)
  | .ferror .input, .ok => if m.rest = [] then some (m, pipe) else none
  | .fopen .log _, .ok | .fclose _, .ok | .semOpen, .ok | .semClose, .ok | .semUnlink, .ok => some (m, pipe)
  | .uninit n, .val (.bytes block) => if block.length = n then some (m, pipe) else none
  | .malloc n, .val (.bytes block) => if block.length = n ∧ n ≤ ptrdiffMax then some (m, pipe) else none
  | .read fd n, .val (.bytes bs) =>
    if fd = job.reducerToMain.1 ∧ bs.isPrefixOf pipe ∧ bs.length ≤ n ∧ (bs = [] → pipe = [] ∨ n = 0) then
      some (m, pipe.drop bs.length)
    else none
  | .close fd, .ok => some (if fd = job.mainToMapper.2 then { m with closed := true } else m, pipe)
  | .waitpid pid, .val (.status status) =>
    if ended pid = some status then some ({ m with waited := pid :: m.waited }, pipe) else none
  | .pipe .mainToMapper, .val (.fds r w) => if (r, w) = job.mainToMapper then some (m, pipe) else none
  | .pipe .reducerToMain, .val (.fds r w) => if (r, w) = job.reducerToMain then some (m, pipe) else none
  | .fork child, .val (.pid pid) => if pid = job.pid child then some (m, pipe) else none
  | .malloc 0, .fail | .pipe .mapperToReducer, .val (.fds _ _) => some (m, pipe)
  | .dup2 _ _, .ok | .kill _, .ok | .processMain _, .val (.code _) => some (m, pipe)
  | _, _ => none

/-- The warning that a directory is skipped, whose result nobody looks at. -/
def skipping (level : Level) (format : String) : Prop :=
  level = .warning ∧ format = "Skipping directory '%s' in input directory '%s'"

/-- The same for the calls of sequential code. What the process does not take for a failure may fail: `getline`, and that
warning. -/
def workEnv (d : Disk) (job : Job) (v : MainView) (c : Io) (r : IoRet) (v' : MainView) : Prop :=
  match c with
  | .log level format => (r = .int 0 ∨ skipping level format) ∧ v' = v
  | .writeN fd bs =>
    (bs ≠ [] → fd = job.mainToMapper.2) ∧ r = .int bs.length ∧ v' = ({ v.1 with out := v.1.out ++ bs }, v.2)
  | .sys e => ∃ x, r = .sys x ∧
      ((∃ ended, v.1.serve d job ended v.2 e x = some v') ∨ e = .getline ∧ x = .fail ∧ v' = v)

/-! ### Rules -/

section Rules

variable {d : Disk} {job : Job} {v : MainView} {α : Type} {Q : Except Leave α → MainView → Prop}
  {command : Fn Unit} {k : Fn α}

/-- Safe in `workEnv`. -/
abbrev SafeMain {β : Type} (d : Disk) (job : Job) (p : IoProg β) (Q : β → MainView → Prop) (v : MainView) :
    Prop := Safe (workEnv d job) (fun _ => True) p Q v

theorem safeMain_log {level : Level} {format : String} {Q : Int → MainView → Prop} (hl : ¬ skipping level format)
    (h : Q 0 v) : SafeMain d job (mrLog level format) Q v := by
  refine ⟨trivial, ?_⟩
  rintro _ _ ⟨rfl | hs, rfl⟩
  · exact ⟨trivial, h⟩
  · exact absurd hs hl

/-- The warning that a directory is skipped. -/
theorem safeMain_anyLog {level : Level} {format : String} {Q : Int → MainView → Prop} (h : ∀ r, Q r v) :
    SafeMain d job (mrLog level format) Q v := by
  refine ⟨trivial, ?_⟩
  rintro r _ ⟨-, rfl⟩
  cases r <;> exact ⟨trivial, h _⟩

theorem not_skipping_info {format : String} : ¬ skipping .info format := fun h => by cases h.1

theorem safeMain_logCheck {format : String} (h : SafeMain d job k.run Q v) :
    SafeMain d job (do syscallRetCheck (← mrLogInfo format) command; k : Fn α).run Q v :=
  safe_check (safeMain_log not_skipping_info ⟨fun h => absurd h (by decide), fun _ => h⟩)

theorem safeMain_logLast {format : String} {Q : Except Leave Unit → MainView → Prop}
    (h : Q (.ok ()) v) : SafeMain d job (do syscallRetCheck (← mrLogInfo format) command : Fn Unit).run Q v :=
  safe_check_last (safeMain_log not_skipping_info ⟨fun h => absurd h (by decide), fun _ => h⟩)

theorem safeMain_sysInt {e : Sys} {Q : Int → MainView → Prop} (he : e ≠ .getline)
    (h : ∀ ended x v', v.1.serve d job ended v.2 e x = some v' → x ≠ .fail ∧ Q 0 v') :
    SafeMain d job (sysInt e) Q v := by
  refine ⟨trivial, ?_⟩
  rintro _ v' ⟨x, rfl, ⟨ended, hx⟩ | ⟨hg, -⟩⟩
  · obtain ⟨hne, hQ⟩ := h ended x v' hx
    cases x with
    | fail => exact absurd rfl hne
    | _ => exact ⟨trivial, hQ⟩
  · exact absurd hg he

/-- A checked call that leaves the process. -/
theorem safeMain_check {e : Sys} (he : e ≠ .getline)
    (h : ∀ ended x v', v.1.serve d job ended v.2 e x = some v' → x ≠ .fail ∧ SafeMain d job k.run Q v') :
    SafeMain d job (do syscallRetCheck (← sysInt e) command; k : Fn α).run Q v := by
  refine safe_check (safeMain_sysInt he fun ended x v' hx => ?_)
  obtain ⟨hne, hk⟩ := h ended x v' hx
  exact ⟨hne, fun h => absurd h (by decide), fun _ => hk⟩

/-- A call whose result is looked at in another way. -/
theorem safeMain_sysCall {e : Sys} {Q : Ret Val → MainView → Prop} (he : e ≠ .getline)
    (h : ∀ ended x v', v.1.serve d job ended v.2 e x = some v' → Q x v') : SafeMain d job (sysCall e) Q v := by
  refine ⟨trivial, ?_⟩
  rintro _ v' ⟨x, rfl, ⟨ended, hx⟩ | ⟨hg, -⟩⟩
  · exact ⟨trivial, h ended x v' hx⟩
  · exact absurd hg he

/-- A `write_n` to the mapper. -/
theorem safeMain_writeN {fd : Nat} {bs : Bytes} {Q : Int → MainView → Prop}
    (h : Q bs.length ({ v.1 with out := v.1.out ++ bs }, v.2)) : SafeMain d job (writeN fd bs) Q v := by
  refine ⟨trivial, ?_⟩
  rintro _ _ ⟨-, rfl, rfl⟩
  exact ⟨trivial, h⟩

theorem safeMain_write {fd : Nat} {bs : Bytes}
    (h : SafeMain d job k.run Q ({ v.1 with out := v.1.out ++ bs }, v.2)) :
    SafeMain d job (do syscallRetCheck (← writeN fd bs) command; k : Fn α).run Q v :=
  safe_check (safeMain_writeN ⟨fun h => by omega, fun _ => h⟩)

/-- A variable that is not initialised. -/
theorem safeMain_uninit {n : Nat} {Q : Bytes → MainView → Prop} (h : ∀ block : Bytes, block.length = n → Q block v) :
    SafeMain d job (uninit n) Q v := by
  refine ⟨trivial, ?_⟩
  rintro _ v' ⟨x, rfl, ⟨ended, hx⟩ | ⟨hg, -⟩⟩
  · rcases x with _ | _ | _ | (_ | block | _ | _ | _ | _ | _ | _ | _)
    all_goals try cases hx
    simp only [MainFiles.serve] at hx
    split at hx
    · rename_i hb
      cases hx
      exact ⟨trivial, h block hb⟩
    · cases hx
  · cases hg

theorem safeMain_lineHeader {eof : Bool} {n : Nat} {Q : Bytes → MainView → Prop}
    (h : ∀ pad : Bytes, pad.length = 7 → Q ((if eof then 1 else 0) :: pad ++ sizeBytes n) v) :
    SafeMain d job (lineHeader eof n) Q v :=
  safe_bind (safeMain_uninit fun pad hp => ⟨trivial, h pad hp⟩)

end Rules

/-! ## Sending the input -/

/-- A file in the middle: the files `done` have been sent, and some of its lines. -/
structure SendingAt (d : Disk) (job : Job) (caller : SendCaller) (path : Bytes) (m : MainFiles) : Prop where
  dir : ∀ dirPath entries, caller = .directory dirPath entries → dirPath = job.inputPath
  sent : ∃ done contents w u, d.input job.inputPath = done ++ (path, contents) :: caller.todo d ∧ NamedWires done w ∧
    m.out = w ++ (sizeBytes path.length ++ path ++ u) ∧
    ∀ x, LineWires (linesOf m.rest) x → LineWires (linesOf contents) (u ++ x)

section Sending

variable {d : Disk} {job : Job} {v : MainView} {caller : SendCaller} {path : Bytes}

/-- The file is opened, and its name is written. -/
theorem safeMain_sendFileOpen {Q : Except Leave Unit → MainView → Prop}
    (h : ∀ c, d.find path = some (.file c) →
      Q (.ok ()) ({ v.1 with rest := c.bytes, out := v.1.out ++ (sizeBytes path.length ++ path) }, v.2)) :
    SafeMain d job (sendFileOpen job.mainToMapper.2 path).run Q v := by
  refine safeMain_logCheck (safeMain_check (by simp) fun ended x v' hx => ?_)
  cases x with
  | ok =>
    simp only [MainFiles.serve] at hx
    split at hx
    · rename_i c hc
      cases hx
      refine ⟨by simp, safeMain_write (safe_check_last (safeMain_writeN ⟨fun h => by omega, fun _ => ?_⟩))⟩
      simpa using h c hc
    · cases hx
  | _ => cases hx

/-- A line is written, or there is none. -/
theorem safeMain_sendFileLine {Q : Except Leave Bool → MainView → Prop} (hnone : Q (.ok false) v)
    (hline : ∀ pad : Bytes, pad.length = 7 → v.1.rest ≠ [] → Q (.ok true) ({ v.1 with
      rest := afterLine v.1.rest
      out := v.1.out ++ ((0 :: pad ++ sizeBytes (dropNewline (nextLine v.1.rest)).length) ++
        dropNewline (nextLine v.1.rest)) }, v.2)) :
    SafeMain d job (sendFileLine job.mainToMapper.2).run Q v := by
  refine safe_lift ⟨trivial, ?_⟩
  rintro _ v' ⟨x, rfl, ⟨ended, hx⟩ | ⟨-, rfl, rfl⟩⟩
  swap
  · exact ⟨trivial, trivial, hnone⟩
  rcases x with _ | _ | _ | (_ | line | _ | _ | _ | _ | _ | _ | _)
  all_goals try cases hx
  · simp only [MainFiles.serve] at hx
    split at hx
    · cases hx
      exact ⟨trivial, trivial, hnone⟩
    · cases hx
  · simp only [MainFiles.serve] at hx
    split at hx
    · rename_i hr
      obtain ⟨hne, rfl⟩ := hr
      cases hx
      obtain ⟨b, bs, hb⟩ := List.exists_cons_of_ne_nil (nextLine_ne_nil hne)
      rw [hb] at hline ⊢
      refine ⟨trivial, safe_lift (safeMain_lineHeader fun pad hp => safeMain_write ?_)⟩
      have hQ := hline pad hp hne
      split
      · refine safeMain_write ⟨trivial, ?_⟩
        simpa using hQ
      · have hnil : dropNewline (b :: bs) = [] := List.eq_nil_of_length_eq_zero (by omega)
        refine ⟨trivial, ?_⟩
        simpa [hnil] using hQ
    · cases hx

/-- The end of the file, if the error indicator is not set. -/
theorem safeMain_sendFileEnd {Q : Except Leave Unit → MainView → Prop} (h : ∀ pad : Bytes, pad.length = 7 →
      v.1.rest = [] → Q (.ok ()) ({ v.1 with out := v.1.out ++ (1 :: pad ++ sizeBytes 0) }, v.2)) :
    SafeMain d job (sendFileEnd job.mainToMapper.2).run Q v := by
  refine safeMain_check (by simp) fun ended x v' hx => ?_
  cases x with
  | ok =>
    simp only [MainFiles.serve] at hx
    split at hx
    · rename_i hr
      cases hx
      refine ⟨by simp, safe_lift (safeMain_lineHeader fun pad hp => safeMain_write ?_)⟩
      refine safeMain_check (by simp) fun ended x v' hx => ?_
      cases x with
      | ok =>
        cases hx
        exact ⟨by simp, safeMain_logLast (h pad hp hr)⟩
      | _ => cases hx
    · cases hx
  | _ => cases hx

/-- From the head of the loop to the next. -/
theorem safeMain_sendFileLoop {Q : Except Leave MainPhase → MainView → Prop} (h : SendingAt d job caller path v.1)
    (hline : ∀ m, SendingAt d job caller path m → Q (.ok (.line job caller path)) (m, v.2))
    (hend : ∀ m done contents, d.input job.inputPath = done ++ (path, contents) :: caller.todo d →
      NamedWires (done ++ [(path, contents)]) m.out → Q (.error (.ret 0)) (m, v.2)) :
    SafeMain d job (sendFileLoop job caller path).run Q v := by
  obtain ⟨done, contents, w, u, hin, hw, hout, hlines⟩ := h.sent
  refine safe_fn_bind (safeMain_sendFileLine ?_ fun pad hp hr => ⟨trivial, hline _ ⟨h.dir, ?_⟩⟩)
  · refine safe_fn_bind (safeMain_sendFileEnd fun pad hp hr => ⟨trivial, hend _ done contents hin ?_⟩)
    have hl : LineWires (linesOf v.1.rest) (1 :: pad ++ sizeBytes 0) := by
      rw [hr, linesOf_nil]
      exact .eof pad hp
    rw [hout]
    simpa using hw.snoc (hlines _ hl)
  · refine ⟨done, contents, w, u ++ ((0 :: pad ++ sizeBytes (dropNewline (nextLine v.1.rest)).length) ++
      dropNewline (nextLine v.1.rest)), hin, hw, by simp [hout], fun x hx => ?_⟩
    have hl : LineWires (linesOf v.1.rest) _ := linesOf_cons hr ▸ LineWires.line pad hp hx
    simpa using hlines _ hl

theorem safeMain_isDirectory {α : Type} {path : Bytes} {k : Int → Fn α} {Q : Except Leave α → MainView → Prop}
    (h : ∀ node, d.find path = some node → SafeMain d job (k (if node = .dir then 1 else 0)).run Q v) :
    SafeMain d job ((isDirectory path).call >>= k).run Q v := by
  refine safe_call_fn (safe_lift (safeMain_sysCall (by simp) fun ended x v' hx => ?_))
  rcases x with _ | _ | _ | (_ | _ | _ | _ | _ | _ | _ | b | _)
  all_goals try cases hx
  simp only [MainFiles.serve] at hx
  split at hx
  · rename_i node hn
    split at hx
    · rename_i hb
      cases hx
      refine ⟨trivial, ?_⟩
      simpa [hb] using h node hn
    · cases hx
  · cases hx

/-- How `send_input_to_mapper` goes on or returns, from a state with `pipe` in the pipe from the reducer. -/
def Sent (d : Disk) (job : Job) (pipe : Bytes) (x : Except Leave MainPhase) (v : MainView) : Prop :=
  v.2 = pipe ∧ ((∃ caller path, x = .ok (.line job caller path) ∧ SendingAt d job caller path v.1) ∨
    x = .error (.ret 0) ∧ NamedWires (d.input job.inputPath) v.1.out)

/-- The entries of the directory, from any of them on. -/
theorem safeMain_sendEntries : ∀ (entries : List Bytes) (done : List (Bytes × Bytes)) (v : MainView),
    d.input job.inputPath = done ++ entries.filterMap (d.entry? job.inputPath) → NamedWires done v.1.out →
    SafeMain d job (sendEntries job job.inputPath entries).run (Sent d job v.2) v
  | [], done, v, hin, hw => by
    rw [List.filterMap_nil, List.append_nil] at hin
    exact safeMain_logCheck ⟨trivial, rfl, .inr ⟨rfl, hin ▸ hw⟩⟩
  | name :: entries, done, v, hin, hw => by
    have next : ∀ v' : MainView, v'.2 = v.2 → d.entry? job.inputPath name = none → NamedWires done v'.1.out →
        SafeMain d job (sendEntries job job.inputPath entries).run (Sent d job v.2) v' := by
      intro v' hv' hnone hw'
      rw [List.filterMap_cons_none hnone] at hin
      exact hv' ▸ safeMain_sendEntries entries done v' hin hw'
    rw [sendEntries]
    split
    · rename_i hdots
      exact next v rfl (by simp [Disk.entry?, hdots]) hw
    · rename_i hdots
      refine safeMain_isDirectory fun node hn => safe_test (fun h => by split at h <;> omega) fun _ => ?_
      cases node with
      | dir => exact safe_lift (safeMain_anyLog fun _ => next v rfl (by simp [Disk.entry?, hdots, Disk.file?, hn]) hw)
      | file c =>
        refine safe_within (safe_fn_bind (safeMain_sendFileOpen fun c' hc => ⟨trivial, rfl, .inl ⟨_, _, rfl, ?_, ?_⟩⟩))
        · rintro dirPath entries' he
          cases he
          rfl
        · have hentry : d.entry? job.inputPath name = some (fullPath job.inputPath name, c'.bytes) := by
            simp [Disk.entry?, hdots, Disk.file?, hc]
          rw [List.filterMap_cons_some hentry] at hin
          exact ⟨done, c'.bytes, v.1.out, [], hin, hw, by simp, fun x hx => hx⟩

/-- `send_input_to_mapper`, when the file or the directory has been sent. -/
theorem safeMain_sentInput {pipe : Bytes} (hp : v.2 = pipe) (hw : NamedWires (d.input job.inputPath) v.1.out) :
    SafeMain d job (sentInput 0).run (Sent d job pipe) v :=
  safe_test (fun h => by omega) fun _ => safeMain_logCheck ⟨trivial, hp, .inr ⟨rfl, hw⟩⟩

/-- **`send_input_to_mapper`**, up to its first loop. -/
theorem safeMain_sendInputToMapper (hv : v.1.out = []) :
    SafeMain d job (sendInputToMapper job).run (Sent d job v.2) v := by
  refine safeMain_isDirectory fun node hn => safe_test (fun h => by split at h <;> omega) fun _ => safeMain_logCheck ?_
  cases node with
  | file c =>
    refine safe_within (safe_fn_bind (safeMain_sendFileOpen fun c' hc => ⟨trivial, rfl, .inl ⟨_, _, rfl, ?_, ?_⟩⟩))
    · rintro dirPath entries he
      cases he
    · refine ⟨[], c'.bytes, [], [], ?_, .nil, by simp [hv], fun x hx => hx⟩
      simp [Disk.input, hc, Disk.file?, SendCaller.todo]
  | dir =>
    refine safe_within (safeMain_logCheck (safe_lift (safeMain_sysCall (by simp) fun ended x v' hx => ?_)))
    rcases x with _ | _ | _ | (_ | _ | _ | _ | _ | _ | _ | _ | ns)
    all_goals try cases hx
    simp only [MainFiles.serve] at hx
    split at hx
    · rename_i hns
      cases hx
      have hin : d.input job.inputPath = [] ++ ns.filterMap (d.entry? job.inputPath) := by simp [Disk.input, hn, hns]
      refine safeMain_logCheck ((safeMain_sendEntries ns [] v hin (hv ▸ .nil)).mono fun x v' _ hx => ?_)
      obtain ⟨hp, ⟨caller, path, rfl, hs⟩ | ⟨rfl, hw⟩⟩ := hx
      · exact ⟨hp, .inl ⟨caller, path, rfl, hs⟩⟩
      · exact safeMain_sentInput hp hw
    · cases hx

/-- **The loop of `send_file_to_mapper`**, from its head to the next. -/
theorem safeMain_sending (h : SendingAt d job caller path v.1) :
    SafeMain d job (caller.within job (sendFileLoop job caller path)).run (Sent d job v.2) v := by
  cases caller with
  | input =>
    refine safe_within (safeMain_sendFileLoop h (fun m hm => ⟨rfl, .inl ⟨_, _, rfl, hm⟩⟩) ?_)
    intro m done contents hin hw
    exact safeMain_sentInput rfl (hin ▸ hw)
  | directory dirPath entries =>
    obtain rfl := h.dir _ _ rfl
    refine safe_within (safe_within (safeMain_sendFileLoop h (fun m hm => ⟨rfl, .inl ⟨_, _, rfl, hm⟩⟩) ?_))
    intro m done contents hin hw
    refine safe_test (fun h => by omega) fun _ => ?_
    have hin' : d.input job.inputPath = (done ++ [(path, contents)]) ++ entries.filterMap (d.entry? job.inputPath) := by
      rw [hin, List.append_assoc]
      rfl
    refine (safeMain_sendEntries entries _ (m, v.2) hin' hw).mono fun x v' _ hx => ?_
    obtain ⟨hp, ⟨caller, path, rfl, hs⟩ | ⟨rfl, hw⟩⟩ := hx
    · exact ⟨hp, .inl ⟨caller, path, rfl, hs⟩⟩
    · exact safeMain_sentInput hp hw

end Sending

/-! ## Receiving the output -/

section Receiving

variable {α : Type} {d : Disk} {job : Job} {v : MainView}

/-- A read takes the first bytes of the pipe. -/
theorem mainServe_read {ended : Nat → Option Status} {m m' : MainFiles} {pipe pipe' : Bytes} {fd n : Nat} {r : Ret Val} :
    m.serve d job ended pipe (.read fd n) r = some (m', pipe') ↔
      ∃ bs, r = .val (.bytes bs) ∧ fd = job.reducerToMain.1 ∧ pipe = bs ++ pipe' ∧ bs.length ≤ n ∧
        (bs = [] → pipe = [] ∨ n = 0) ∧ m' = m := by
  constructor
  · intro h
    rcases r with _ | _ | _ | (_ | bs | _ | _ | _ | _ | _ | _ | _)
    all_goals try cases h
    simp only [MainFiles.serve] at h
    split at h
    · rename_i hb
      obtain ⟨hfd, hpre, hlen, hnil⟩ := hb
      cases h
      obtain ⟨rest, rfl⟩ := List.isPrefixOf_iff_prefix.mp hpre
      exact ⟨bs, rfl, hfd, by simp, hlen, hnil, rfl⟩
    · cases h
  · rintro ⟨bs, rfl, hfd, rfl, hlen, hnil, rfl⟩
    have hpre : bs.isPrefixOf (bs ++ pipe') = true := List.isPrefixOf_iff_prefix.mpr (List.prefix_append _ _)
    simp only [MainFiles.serve]
    rw [if_pos ⟨hfd, hpre, hlen, hnil⟩, List.drop_left]

/-- A `read_n` takes `n` bytes, or all there are. -/
theorem safeMain_readN {fd n : Nat} {Q : Option Bytes → MainView → Prop}
    (h : Q (some (v.2.take n)) (v.1, v.2.drop n)) : SafeMain d job (readN fd n) Q v := by
  have hcalls : (readN fd n).Calls (fun c => ∃ m, c = .sys (.read fd m)) Any := calls_readN fun m => ⟨m, rfl⟩
  let rel : Bytes → MainView → Prop := fun s v' => v' = (v.1, s)
  have hrel : rel v.2 v := rfl
  refine (Wp.safe ?_ hcalls (readN_spec fd n v.2) hrel).mono ?_
  · rintro s _ _ r v' rfl ⟨m, rfl⟩ - ⟨x, rfl, ⟨ended, hx⟩ | ⟨hg, -⟩⟩
    · obtain ⟨bs, rfl, -, hs, hlen, hnil, hm⟩ := mainServe_read.mp (show _ = some (v'.1, v'.2) from hx)
      exact ⟨v'.2, ⟨hs, hlen, hnil⟩, Prod.ext hm rfl⟩
    · cases hg
  · rintro x _ - ⟨-, s, rfl, rfl, rfl⟩
    exact h

/-- `malloc` may return `NULL` for 0 bytes. -/
theorem mainServe_malloc {ended : Nat → Option Status} {m : MainFiles} {pipe : Bytes} {n : Nat} {r : Ret Val}
    {v' : MainView} : m.serve d job ended pipe (.malloc n) r = some v' ↔ v' = (m, pipe) ∧
      ((∃ block, r = .val (.bytes block) ∧ block.length = n ∧ n ≤ ptrdiffMax) ∨ n = 0 ∧ r = .fail) := by
  rcases r with _ | _ | _ | (_ | block | _ | _ | _ | _ | _ | _ | _)
  case val.bytes => simp [MainFiles.serve, eq_comm, and_comm]
  all_goals cases n <;> simp [MainFiles.serve, eq_comm]

theorem safeMain_malloc {n : Nat} {Q : Option Bytes → MainView → Prop} (hnone : n = 0 → Q none v)
    (hsome : ∀ block : Bytes, block.length = n → Q (some block) v) : SafeMain d job (malloc n) Q v := by
  refine ⟨trivial, ?_⟩
  rintro _ v' ⟨x, rfl, ⟨ended, hx⟩ | ⟨hg, -⟩⟩
  · obtain ⟨rfl, ⟨block, rfl, hb, -⟩ | ⟨rfl, rfl⟩⟩ := mainServe_malloc.mp hx
    · exact ⟨trivial, hsome block hb⟩
    · exact ⟨trivial, hnone rfl⟩
  · cases hg

/-- A part of the output file is written. -/
theorem safeMain_fwrite {bs : Bytes} {command : Fn Unit} {k : Fn α} {Q : Except Leave α → MainView → Prop}
    (h : SafeMain d job k.run Q ({ v.1 with file := v.1.file ++ bs }, v.2)) :
    SafeMain d job (do syscallRetCheck (← sysInt (.fwrite bs)) command; k : Fn α).run Q v := by
  refine safeMain_check (by simp) fun ended x v' hx => ?_
  cases x with
  | ok =>
    cases hx
    exact ⟨by simp, h⟩
  | _ => cases hx

/-- `n` bytes go from the pipe to the file, if there are so many. -/
def Takes (n : Nat) (v : MainView) (x : Except Leave Unit) (v' : MainView) : Prop :=
  x = .ok () ∧ ∃ bs rest, v' = ({ v.1 with file := v.1.file ++ bs }, rest) ∧
    ∀ t r, v.2 = t ++ r → t.length = n → bs = t ∧ rest = r

theorem takes_nothing : Takes 0 v (.ok ()) v := by
  refine ⟨rfl, [], v.2, by simp, fun t r hv ht => ?_⟩
  obtain rfl := List.eq_nil_of_length_eq_zero ht
  exact ⟨rfl, by simpa using hv⟩

theorem safeMain_readWrite {fd n : Nat} {block : Bytes} (hb : block.length = n) (format format' : String) :
    SafeMain d job (do
      match ← readN fd n with
      | none => outputFailed format
      | some bs => syscallRetCheck (← sysInt (.fwrite (fill block bs))) (outputFailed format') : Fn Unit).run
      (Takes n v) v := by
  refine safe_lift (safeMain_readN (safe_check_last (safeMain_sysInt (by simp) fun ended x v' hx => ?_)))
  cases x with
  | ok =>
    cases hx
    refine ⟨by simp, fun h => by omega, fun _ => ⟨rfl, _, _, rfl, fun t r hv ht => ?_⟩⟩
    rw [hv, List.take_left' ht, List.drop_left' ht, fill_full (by omega)]
    exact ⟨rfl, rfl⟩
  | _ => cases hx

theorem safeMain_receiveRecordToken (fd n : Nat) : SafeMain d job (receiveRecordToken fd n).run (Takes n v) v := by
  unfold receiveRecordToken
  split
  · rename_i hn
    exact safe_lift (safeMain_malloc (fun h => by omega) fun block hb => safeMain_readWrite hb _ _)
  · obtain rfl : n = 0 := by omega
    exact ⟨trivial, takes_nothing⟩

theorem safeMain_receiveRecordResult (fd n : Nat) : SafeMain d job (receiveRecordResult fd n).run (Takes n v) v := by
  refine safe_lift (safeMain_malloc (fun h => ?_) fun block hb => ?_)
  · subst h
    exact ⟨trivial, takes_nothing⟩
  · by_cases hn : 0 < n
    · simp only [hn, if_true]
      exact safeMain_readWrite hb _ _
    · obtain rfl : n = 0 := by omega
      exact ⟨trivial, takes_nothing⟩

theorem safeMain_receiveOutputEnd {Q : Except Leave Unit → MainView → Prop} (h : Q (.ok ()) v) :
    SafeMain d job receiveOutputEnd.run Q v := by
  refine safeMain_check (by simp) fun ended x v' hx => ?_
  cases x with
  | ok =>
    cases hx
    exact ⟨by simp, safeMain_logLast h⟩
  | _ => cases hx

/-- The output is on its way: of the results in the pipe at the beginning, some are in the file and the others still in
the pipe, and the header is whole. -/
def Arriving (pipe header : Bytes) (v : MainView) : Prop :=
  ∀ ms : List Msg, pipe = ms.flatMap Msg.wire → header.length = 16 ∧ ∃ done todo, ms = done ++ todo ∧
    v.2 = todo.flatMap Msg.wire ∧ v.1.file = done.flatMap Msg.record

/-- It has arrived. -/
def Arrived (pipe : Bytes) (m : MainFiles) : Prop :=
  ∀ ms : List Msg, pipe = ms.flatMap Msg.wire → m.file = ms.flatMap Msg.record

/-- **One iteration** of the loop of `receive_output_from_reducer`, whatever is in the pipe. -/
theorem safeMain_receiveRecord {pipe header : Bytes} (h : Arriving pipe header v) :
    SafeMain d job (receiveRecord job header).run (fun x v' => v'.1.closed = v.1.closed ∧ v'.1.out = v.1.out ∧
      ((∃ header', x = .ok (.record job header') ∧ Arriving pipe header' v') ∨
        x = .error (.ret 0) ∧ Arrived pipe v'.1)) v := by
  refine safe_lift (safeMain_readN ?_)
  cases hb : v.2.take 16 with
  | nil =>
    refine safe_fn_bind (safeMain_receiveOutputEnd ⟨trivial, rfl, rfl, .inr ⟨rfl, fun ms hms => ?_⟩⟩)
    obtain ⟨hh, done, todo, rfl, hp, hf⟩ := h ms hms
    cases todo with
    | nil => simpa using hf
    | cons m todo =>
      obtain ⟨ht, -⟩ := msgHeader_fields m (todo.flatMap Msg.wire) hh
      rw [hp, List.flatMap_cons, ht] at hb
      have hlen := length_msgHeader m
      rw [hb] at hlen
      cases hlen
  | cons b bs =>
    -- the message that is received, if the pipe carries messages
    have hnext : ∀ ms : List Msg, pipe = ms.flatMap Msg.wire → ∃ done m todo, ms = done ++ m :: todo ∧
        fill header (b :: bs) = msgHeader m ∧
        v.2.drop 16 = m.token.bytes ++ (m.value.bytes ++ todo.flatMap Msg.wire) ∧
        leNat ((fill header (b :: bs)).take 8) = m.token.bytes.length ∧
        leNat (((fill header (b :: bs)).drop 8).take 8) = m.value.bytes.length ∧
        v.1.file = done.flatMap Msg.record := by
      intro ms hms
      obtain ⟨hh, done, todo, rfl, hp, hf⟩ := h ms hms
      cases todo with
      | nil => simp [hp] at hb
      | cons m todo =>
        obtain ⟨ht, hd, h1, h2⟩ := msgHeader_fields m (todo.flatMap Msg.wire) hh
        rw [List.flatMap_cons] at hp
        rw [hp, ht] at hb
        rw [← hb]
        refine ⟨done, m, todo, rfl, fill_full (by rw [hh, length_msgHeader]), ?_, h1, h2, hf⟩
        rw [hp, hd]
    refine safeMain_fwrite (safe_fn_bind ((safeMain_receiveRecordToken _ _).mono ?_))
    rintro _ _ - ⟨rfl, t, r, rfl, htake⟩
    refine safeMain_fwrite (safe_fn_bind ((safeMain_receiveRecordResult _ _).mono ?_))
    rintro _ _ - ⟨rfl, t', r', rfl, htake'⟩
    refine ⟨trivial, rfl, rfl, .inl ⟨_, rfl, fun ms hms => ?_⟩⟩
    obtain ⟨done, m, todo, rfl, hhdr, hrest, h1, h2, hf⟩ := hnext ms hms
    obtain ⟨rfl, rfl⟩ := htake _ _ hrest h1.symm
    obtain ⟨rfl, rfl⟩ := htake' _ _ rfl h2.symm
    refine ⟨by rw [hhdr]; exact length_msgHeader m, done ++ [m], todo, by simp, rfl, ?_⟩
    rw [h1, h2, hf, List.flatMap_append]
    simp [Msg.record, sized, sizeBytes]

end Receiving

/-! ## The whole -/

section Whole

variable {d : Disk} {job : Job} {v : MainView} {pipe : Bytes}

/-- **What the main process has done when `mr_start` returns**, where `pipe` came through the pipe from the reducer. -/
structure Delivered (d : Disk) (job : Job) (pipe : Bytes) (m : MainFiles) : Prop where
  closed : m.closed = true
  sent : NamedWires (d.input job.inputPath) m.out
  arrived : Arrived pipe m
  mapper : job.mapperPid ∈ m.waited
  reducer : job.reducerPid ∈ m.waited

/-- How `mr_start` returns, or comes to the head of a loop. -/
def mainEnds (d : Disk) (job : Job) (pipe : Bytes) (x : Except Leave MainPhase) (v : MainView) : Prop :=
  match x with
  | .ok (.line job' caller path) => job' = job ∧ SendingAt d job caller path v.1 ∧ v.2 = pipe
  | .ok (.record job' header) =>
    job' = job ∧ v.1.closed = true ∧ NamedWires (d.input job.inputPath) v.1.out ∧ Arriving pipe header v
  | .error l => l = .ret 0 ∧ Delivered d job pipe v.1

theorem safeMain_close {fd : Nat} {α : Type} {k : Fn α} {command : Fn Unit} {Q : Except Leave α → MainView → Prop}
    (h : SafeMain d job k.run Q (if fd = job.mainToMapper.2 then { v.1 with closed := true } else v.1, v.2)) :
    SafeMain d job (do syscallRetCheck (← close fd) command; k : Fn α).run Q v := by
  refine safeMain_check (by simp) fun ended x v' hx => ?_
  cases x with
  | ok =>
    cases hx
    exact ⟨by simp, h⟩
  | _ => cases hx

/-- A child is waited for, however it has ended. -/
theorem safeMain_waitForProcess {pid : Nat} {α : Type} {k : Int → Fn α} {Q : Except Leave α → MainView → Prop}
    (h : SafeMain d job (k 0).run Q ({ v.1 with waited := pid :: v.1.waited }, v.2)) :
    SafeMain d job ((waitForProcess pid).call >>= k).run Q v := by
  refine safe_call_fn (safe_lift (safeMain_sysCall (by simp) fun ended x v' hx => ?_))
  rcases x with _ | _ | _ | (_ | _ | _ | _ | _ | _ | status | _ | _)
  all_goals try cases hx
  simp only [MainFiles.serve] at hx
  split at hx
  · cases hx
    cases status with
    | exited c => exact safeMain_logCheck ⟨trivial, h⟩
    | _ => exact safe_check (safeMain_log (by simp [skipping]) ⟨fun h => absurd h (by decide), fun _ => ⟨trivial, h⟩⟩)
  · cases hx

/-- `mr_log_destroy` -/
theorem safeMain_mrLogDestroy {α : Type} {k : Int → Fn α} {Q : Except Leave α → MainView → Prop}
    (h : SafeMain d job (k 0).run Q v) : SafeMain d job (mrLogDestroy.call >>= k).run Q v := by
  refine safe_call_fn (safeMain_check (by simp) fun ended x v' hx => ?_)
  cases x with
  | ok =>
    cases hx
    refine ⟨by simp, safeMain_check (by simp) fun ended x v' hx => ?_⟩
    cases x with
    | ok =>
      cases hx
      refine ⟨by simp, safeMain_check (by simp) fun ended x v' hx => ?_⟩
      cases x with
      | ok =>
        cases hx
        exact ⟨by simp, trivial, h⟩
      | _ => cases hx
    | _ => cases hx
  | _ => cases hx

/-- `mr_run` and `mr_start`, when `spawn_processes` has returned 0. -/
theorem safeMain_spawned (h : Delivered d job pipe v.1) :
    SafeMain d job (spawned 0 : Fn MainPhase).run (fun x v' => match x with
      | .error (.ret r) => SafeMain d job (ran r).run (mainEnds d job pipe) v'
      | x => mainEnds d job pipe x v') v := by
  refine safe_test (fun h => by omega) fun _ => safeMain_mrLogDestroy (safe_test (fun h => by omega) fun _ => ?_)
  exact ⟨trivial, safe_test (fun h => by omega) fun _ => ⟨trivial, rfl, h⟩⟩

/-- What `spawn_processes` leaves to `mr_run`, -/
theorem safeMain_withinSpawned {f : Fn MainPhase} (h : SafeMain d job f.run (fun x v' => match x with
      | .ok ph => mainEnds d job pipe (.ok ph) v'
      | .error l => l = .ret 0 ∧ Delivered d job pipe v'.1) v) :
    SafeMain d job (f.within spawned).run (fun x v' => match x with
      | .error (.ret r) => SafeMain d job (ran r).run (mainEnds d job pipe) v'
      | x => mainEnds d job pipe x v') v := by
  refine safe_within (h.mono fun x v' _ hx => ?_)
  cases x with
  | ok ph => exact hx
  | error l =>
    obtain ⟨rfl, hd⟩ := hx
    exact safeMain_spawned hd

/-- and what `mr_run` leaves to `mr_start`. -/
theorem safeMain_inSpawnProcesses {f : Fn MainPhase} (h : SafeMain d job f.run (fun x v' => match x with
      | .ok ph => mainEnds d job pipe (.ok ph) v'
      | .error l => l = .ret 0 ∧ Delivered d job pipe v'.1) v) :
    SafeMain d job (inSpawnProcesses f).run (mainEnds d job pipe) v := by
  refine safe_within ((safeMain_withinSpawned h).mono fun x v' _ hx => ?_)
  rcases x with (r | c | ⟨child, c⟩) | ph <;> exact hx

/-- When `receive_output_from_reducer` has returned. -/
theorem safeMain_receivedOutput (hc : v.1.closed = true) (hw : NamedWires (d.input job.inputPath) v.1.out)
    (ha : Arrived pipe v.1) : SafeMain d job (receivedOutput job 0).run (fun x v' => match x with
      | .ok ph => mainEnds d job pipe (.ok ph) v'
      | .error l => l = .ret 0 ∧ Delivered d job pipe v'.1) v := by
  refine safe_test (fun h => by omega) fun _ => safeMain_close ?_
  refine safeMain_waitForProcess (safe_test (fun h => by omega) fun _ => ?_)
  refine safeMain_waitForProcess (safe_test (fun h => by omega) fun _ => ⟨trivial, rfl, ?_⟩)
  split
  · exact ⟨rfl, hw, ha, by simp, by simp⟩
  · exact ⟨hc, hw, ha, by simp, by simp⟩

/-- When `send_input_to_mapper` has returned. -/
theorem safeMain_sentToMapper (hw : NamedWires (d.input job.inputPath) v.1.out) (hp : v.2 = pipe) :
    SafeMain d job (sentToMapper job 0).run (fun x v' => match x with
      | .ok ph => mainEnds d job pipe (.ok ph) v'
      | .error l => l = .ret 0 ∧ Delivered d job pipe v'.1) v := by
  refine safe_test (fun h => by omega) fun _ => safeMain_close (safe_within (safeMain_logCheck ?_))
  rw [if_pos rfl]
  refine safeMain_check (by simp) fun ended x v' hx => ?_
  cases x with
  | ok =>
    simp only [MainFiles.serve, if_true, Option.some.injEq] at hx
    subst hx
    refine ⟨by simp, safe_lift (safeMain_uninit fun header hh => ?_)⟩
    exact ⟨trivial, rfl, rfl, hw, fun ms hms => ⟨hh, [], ms, rfl, hp.trans hms, rfl⟩⟩
  | _ => cases hx

theorem Sent.ends {x : Except Leave MainPhase} (h : Sent d job pipe x v) : match x with
    | .error (.ret r) => SafeMain d job (sentToMapper job r).run (fun x v' => match x with
      | .ok ph => mainEnds d job pipe (.ok ph) v'
      | .error l => l = .ret 0 ∧ Delivered d job pipe v'.1) v
    | .ok ph => mainEnds d job pipe (.ok ph) v
    | .error _ => False := by
  obtain ⟨hp, ⟨caller, path, rfl, hs⟩ | ⟨rfl, hw⟩⟩ := h
  · exact ⟨rfl, hs, hp⟩
  · exact safeMain_sentToMapper hw hp

/-- What `mr_start` does when it has spawned the children and closed the ends of the pipes that it does not use. -/
def mrStartWork (job : Job) : Fn MainPhase := inSpawnProcesses ((sendInputToMapper job).within (sentToMapper job))

/-- `mr_run` with its children, up to its first loop. -/
theorem safeMain_sendAndReceive (hv : v.1.out = []) (hp : v.2 = pipe) :
    SafeMain d job (((sendInputToMapper job).within (sentToMapper job)).within spawned).run (fun x v' => match x with
      | .error (.ret r) => SafeMain d job (ran r).run (mainEnds d job pipe) v'
      | x => mainEnds d job pipe x v') v := by
  subst hp
  refine safeMain_withinSpawned (safe_within ((safeMain_sendInputToMapper hv).mono fun x v _ hx => ?_))
  have := hx.ends
  rcases x with (r | c | ⟨child, c⟩) | ph
  · exact this
  · exact this.elim
  · exact this.elim
  · exact this

/-- **`mr_start` with its children**, up to its first loop. -/
theorem safe_mrStartWork (hv : v.1.out = []) (hp : v.2 = pipe) :
    SafeMain d job (mrStartWork job).run (mainEnds d job pipe) v := by
  refine safe_within ((safeMain_sendAndReceive hv hp).mono fun x v' _ hx => ?_)
  rcases x with (r | c | ⟨child, c⟩) | ph <;> exact hx

/-- **And from the head of a loop to the next.** -/
theorem safe_mrStartBlock (ph : MainPhase) (h : mainEnds d job pipe (.ok ph) v) :
    SafeMain d job (mrStartBlock ph).run (mainEnds d job pipe) v := by
  cases ph with
  | line job' caller path =>
    obtain ⟨rfl, hs, rfl⟩ := h
    refine safeMain_inSpawnProcesses (safe_within ((safeMain_sending hs).mono fun x v _ hx => ?_))
    have := hx.ends
    rcases x with (r | c | ⟨child, c⟩) | ph
    · exact this
    · exact this.elim
    · exact this.elim
    · exact this
  | record job' header =>
    obtain ⟨rfl, hc, hw, ha⟩ := h
    refine safeMain_inSpawnProcesses (safe_within ((safeMain_receiveRecord ha).mono ?_))
    rintro x v' - ⟨h1, h2, ⟨header', rfl, ha'⟩ | ⟨rfl, ha'⟩⟩
    · exact ⟨rfl, h1.trans hc, h2 ▸ hw, ha'⟩
    · exact safeMain_receivedOutput (h1.trans hc) (h2 ▸ hw) ha'

end Whole

end MrLib
