import MrLib.Pipeline.Output
import MrLib.Pipeline.Start
import MrLib.Process.Emits
import MrLib.Process.MapperRuns
import MrLib.Process.Received

/-!
# What a result 0 of `mr_start` says about the output file

`JobRun` is a run of `mr_start` with the runs of its two children: calls of all three may fail, and a child may stop
anywhere. The main process reads what the reducer has written, the reducer what the mapper has written, and the mapper what
the main process has. `failure_propagation` says when a result 0 means that both children have succeeded and that the
output file is computed from the whole input (`JobRun.Complete`).

Two things stand in the way. `wait_for_process` returns 0 for every status (`mrStart_ignores_status`). And a child may lose
a line, a token or a message and exit with `EXIT_SUCCESS` all the same (`mrStart_loses_line`): its steps have to be such
that nothing is lost (`ChildRun.Whole`).
-/

namespace MrLib

open Conc Prog

/-! ## The input -/

/-- The file of a name in a directory, however long its path is. -/
def Disk.ownEntry? (d : Disk) (dirPath name : Bytes) : Option (Bytes × Bytes) :=
  if name = [46] ∨ name = [46, 46] then none else d.file? (dirPath ++ 47 :: name)

/-- The files that the input consists of. -/
def Disk.files (d : Disk) (inputPath : Bytes) : List (Bytes × Bytes) :=
  if d.find inputPath = some .dir then (d.list inputPath).filterMap (d.ownEntry? inputPath)
  else (d.file? inputPath).toList

/-- The path that is built for a name leads to the file of that name, or neither leads to a file. -/
def Disk.Named (d : Disk) (inputPath : Bytes) : Prop :=
  d.find inputPath = some .dir → ∀ name ∈ d.list inputPath, d.entry? inputPath name = d.ownEntry? inputPath name

section Disk

variable {d : Disk} {inputPath : Bytes}

/-- A path that is not cut does. -/
theorem named_of_lt (h : ∀ name ∈ d.list inputPath, (inputPath ++ 47 :: name).length < pathMax) : d.Named inputPath := by
  intro _ name hn
  have hlt := h name hn
  have hfull : fullPath inputPath name = inputPath ++ 47 :: name :=
    List.take_of_length_le (by unfold pathMax at hlt ⊢; omega)
  rw [Disk.entry?, Disk.ownEntry?, hfull]

theorem Disk.Named.input_eq (h : d.Named inputPath) : d.input inputPath = d.files inputPath := by
  unfold Disk.input Disk.files
  split
  · rename_i hdir
    exact List.filterMap_congr (h hdir)
  · rfl

end Disk

/-! ## The main process -/

/-- The calls of the main process in a run in which they may fail. What a failing call leaves behind is not said. -/
def liveEnv (d : Disk) (job : Job) (v : MainView) (c : Io) (r : IoRet) (v' : MainView) : Prop :=
  failure c r = true ∨ workEnv d job v c r v'

section Main

variable {d : Disk} {job : Job} {v v' : MainView} {τ : Trace}

theorem walks_of_clean (h : Walks (liveEnv d job) v τ v') (hc : Clean τ) : Walks (workEnv d job) v τ v' := by
  induction h with
  | nil => exact .nil
  | snoc _ he ih =>
    obtain ⟨hc, hf⟩ := clean_append.mp hc
    refine .snoc (ih hc) (he.resolve_left fun h => ?_)
    rw [h] at hf
    cases hf

/-- A child that has been forked is one of the job. -/
theorem forked_pid (h : Walks (workEnv d job) v τ v') : ∀ child pid, Forked τ child pid → pid = job.pid child := by
  refine h.inv (I := fun τ _ => ∀ child pid, Forked τ child pid → pid = job.pid child) (fun _ _ h => by cases h) ?_
  intro τ s c r s' ih he child pid hf
  rcases List.mem_append.mp hf with hf | hf
  · exact ih child pid hf
  · cases List.mem_singleton.mp hf
    obtain ⟨x, hx, ⟨ended, hs⟩ | ⟨hg, -⟩⟩ := he
    · cases hx
      simp only [MainFiles.serve] at hs
      split at hs
      · assumption
      · cases hs
    · cases hg

end Main

/-! ## The children -/

/-- A child that has ended with this status. `last` is the state in which its threads were then, with the messages they had
passed to the emits; there is none if the child has not come to its `..._process_main`, and then it has written nothing. -/
structure ChildRun {ω Φ : Type} (C : ProcessCode ω Φ) (args : PoolArgs) (size : Nat) (stdin : Bytes) (status : Status) where
  last : Option (Hosted ω Φ × List (Tid × Msg))
  reached : ∀ x ∈ last, Reach (C.emitting args size stdin) (fun _ _ => True) x
  ended : ∀ x ∈ last, ∀ c, status = .exited c → x.1.threads.exitCode = some c

namespace ChildRun

variable {ω Φ : Type} {C : ProcessCode ω Φ} {args : PoolArgs} {size : Nat} {stdin : Bytes} {status : Status}

/-- What it has written to its standard output. -/
def out (h : ChildRun C args size stdin status) : Bytes :=
  match h.last with
  | some x => x.1.threads.mem.stdout.out
  | none => []

/-- It has come to its `..._process_main`, and on the way to where it has ended no step has lost an element of the queue
(`Keeps`) or a message. -/
def Whole (h : ChildRun C args size stdin status) (Keeps : Hosted ω Φ → Act Tid Val → Prop) : Prop :=
  ∃ x ∈ h.last, Reach (C.emitting args size stdin) (fun x a => Keeps x.1 a ∧ EmitsGoOn x.1.threads a) x

/-- Such a child, when it has exited with 0. -/
theorem Whole.ended {h : ChildRun C args size stdin status} {Keeps : Hosted ω Φ → Act Tid Val → Prop} (hw : h.Whole Keeps)
    (hs : status = .exited 0) : ∃ x ∈ h.last, h.out = x.1.threads.mem.stdout.out ∧
      Reach (C.emitting args size stdin) (fun x a => Keeps x.1 a ∧ EmitsGoOn x.1.threads a) x ∧
        x.1.threads.loc .controller = .done exitSuccess := by
  obtain ⟨x, hx, hr⟩ := hw
  have hcode := h.ended x hx 0 hs
  obtain ⟨c, hc, hl⟩ := loc_of_exitCode (Option.isSome_of_eq_some hcode)
  rw [hcode] at hc
  cases hc
  refine ⟨x, hx, ?_, hr, hl⟩
  rw [out, Option.mem_def.mp hx]

/-- **The mapper** has mapped all lines, and written all pairs. -/
theorem Whole.mapped {h : ChildRun (mapperCode args) args sizeofFileLine stdin status} (hw : h.Whole (KeepsLines args))
    (hs : status = .exited 0) {files : List InputFile} (hin : FileWires files stdin) :
    ∃ m ∈ h.last, ∃ pairs : List Msg, (callsOf m.1.threads.mem.user.events).Perm ((allLines files).map .mapper) ∧
      pairs.Perm (m.2.map Prod.snd) ∧ h.out = pairs.flatMap Msg.wire := by
  obtain ⟨m, hm, hout, hr, hd⟩ := hw.ended hs
  have hreach : Reach (mapperSystem args stdin) (KeepsLines args) m.1 := reach_emitting (fun _ _ hc => hc.1) hr
  obtain ⟨hover, hcalls⟩ := mapper_served hreach hd
  obtain ⟨pairs, hpairs, hwires⟩ := all_put_out mapperWorker_first (fun _ _ hc => hc.2) hr hover
  rw [mapper_received hin hreach hd] at hcalls
  exact ⟨m, hm, pairs, hcalls, hpairs, hout.trans hwires⟩

/-- **The reducer** has reduced all tokens, and written all results. -/
theorem Whole.reduced {h : ChildRun (reducerCode args) args sizeofPtr stdin status} (hw : h.Whole (KeepsTokens args))
    (hs : status = .exited 0) {pairs : List Msg} (hin : stdin = pairs.flatMap Msg.wire) :
    ∃ r ∈ h.last, ∃ results : List Msg,
      (callsOf r.1.threads.mem.user.events).Perm (reducerCalls (pairs.map Msg.pair)) ∧
        results.Perm (r.2.map Prod.snd) ∧ h.out = results.flatMap Msg.wire := by
  subst hin
  obtain ⟨r, hmem, hout, hr, hd⟩ := hw.ended hs
  have hreach : Reach (reducerSystem args (pairs.flatMap Msg.wire)) (KeepsTokens args) r.1 :=
    reach_emitting (fun _ _ hc => hc.1) hr
  obtain ⟨hover, hcalls⟩ := reducer_served hreach hd
  obtain ⟨results, hresults, hwires⟩ := all_put_out reducerWorker_first (fun _ _ hc => hc.2) hr hover
  rw [reducer_received hreach hd] at hcalls
  exact ⟨r, hmem, results, hcalls, hresults, hout.trans hwires⟩

end ChildRun

/-! ## The job -/

/-- A run of `mr_start` that returns, with the runs of its children. -/
structure JobRun where
  disk : Disk
  job : Job
  args : StartArgs
  mapperArgs : PoolArgs
  reducerArgs : PoolArgs
  /-- The files of the input. -/
  input : List InputFile
  /-- How a process has ended. -/
  ends : Nat → Status
  trace : Trace
  result : Int
  /-- What the main process has at the end, and what it has not read. -/
  files : MainFiles
  unread : Bytes
  mapper : ChildRun (mapperCode mapperArgs) mapperArgs sizeofFileLine files.out (ends job.mapperPid)
  reducer : ChildRun (reducerCode reducerArgs) reducerArgs sizeofPtr mapper.out (ends job.reducerPid)
  inputPath : ∀ path, args.inputPath = some path → path = job.inputPath
  outputPath : ∀ path, args.outputPath = some path → path = job.outputPath
  input_eq : input.map (fun f => (f.path.bytes, f.contents)) = disk.files job.inputPath
  returns : MrStartReturns ends args trace result
  heard : Walks (liveEnv disk job) (.start, reducer.out) trace (files, unread)

namespace JobRun

/-- A call of the main process has failed whose result is looked at, or an argument is `NULL`. -/
def Noticed (j : JobRun) : Prop := (∃ e ∈ j.trace, failure e.1 e.2 = true) ∨ j.args.hasNull = true

/-- Nothing that is to be in the output is lost: the entries of the directory are found under their paths, and the children
are whole. -/
structure Whole (j : JobRun) : Prop where
  named : j.disk.Named j.job.inputPath
  mapper : j.mapper.Whole (KeepsLines j.mapperArgs)
  reducer : j.reducer.Whole (KeepsTokens j.reducerArgs)

/-- **The output file is computed from the whole input**: the user's mapper was called once for every line of the files, the
user's reducer once for every token of the pairs which the mapper has emitted, with all the values, and the file has the
results which the reducer has emitted. -/
def Complete (j : JobRun) : Prop :=
  ∃ m ∈ j.mapper.last, ∃ r ∈ j.reducer.last, ∃ pairs results : List Msg,
    (callsOf m.1.threads.mem.user.events).Perm ((allLines j.input).map .mapper) ∧ pairs.Perm (m.2.map Prod.snd) ∧
      (callsOf r.1.threads.mem.user.events).Perm (reducerCalls (pairs.map Msg.pair)) ∧
        results.Perm (r.2.map Prod.snd) ∧ OutputOf results j.files.file

/-- **The result is right**: 0 only if both children have succeeded, `-1` if one of them has not; and a result 0 is not
paired with an output file computed from only a part of the input. -/
def Propagates (j : JobRun) : Prop :=
  StatusesPropagate j.ends j.trace j.result ∧ (j.result = 0 → j.Complete)

variable {j : JobRun}

/-- Where no call of the main process fails it has delivered. -/
theorem delivered (hc : Clean j.trace) (hnull : j.args.hasNull = false) :
    Delivered j.disk j.job j.reducer.out j.files := by
  have hw := walks_of_clean j.heard hc
  have hr := j.returns
  have hin := j.inputPath
  have hout := j.outputPath
  rcases hargs : j.args with ⟨_ | logFile, _ | inputPath, _ | outputPath⟩
  case some.some.some =>
    rw [hargs] at hr hin hout
    obtain rfl := hin _ rfl
    obtain rfl := hout _ rfl
    exact main_delivered hr hw
  all_goals
    rw [hargs] at hnull
    cases hnull

/-- A child of the job has succeeded. -/
theorem exited (hs : Succeeded j.ends j.trace) (hc : Clean j.trace) {child : Proc}
    (hm : child ∈ [Proc.mapper, Proc.reducer]) : j.ends (j.job.pid child) = .exited 0 := by
  obtain ⟨pid, hf⟩ := hs.1 child hm
  rw [← forked_pid (walks_of_clean j.heard hc) child pid hf]
  exact hs.2 child pid hf

/-- What has gone through the pipes, where both children have succeeded and nothing is lost. -/
theorem complete (hc : Clean j.trace) (hnull : j.args.hasNull = false) (hs : Succeeded j.ends j.trace) (hw : j.Whole) :
    j.Complete := by
  have hd := delivered hc hnull
  have hmapper : j.ends (j.job.pid .mapper) = .exited 0 := exited hs hc (by simp)
  have hreducer : j.ends (j.job.pid .reducer) = .exited 0 := exited hs hc (by simp)
  have hsent : FileWires j.input j.files.out := by
    refine fileWires_of_namedWires ?_
    rw [j.input_eq, ← hw.named.input_eq]
    exact hd.sent
  obtain ⟨m, hm, pairs, hmapped, hpairs, hout⟩ := hw.mapper.mapped hmapper hsent
  obtain ⟨r, hr, results, hreduced, hresults, hout⟩ := hw.reducer.reduced hreducer hout
  refine ⟨m, hm, r, hr, pairs, results, hmapped, hpairs, hreduced, hresults, ?_⟩
  rw [hd.arrived results hout]
  exact outputOf_records results

end JobRun

/-- **Failure propagation.** The statuses of the children are propagated exactly in the runs in which both have succeeded, or
the main process has noticed a failure. If in the first case nothing is lost besides, a result 0 means that the output file
is complete. -/
theorem failure_propagation (j : JobRun) :
    (StatusesPropagate j.ends j.trace j.result ↔ Succeeded j.ends j.trace ∨ j.Noticed) ∧
      (Succeeded j.ends j.trace ∧ j.Whole ∨ j.Noticed → j.Propagates) := by
  have hst := statuses_propagate j.returns
  refine ⟨hst, ?_⟩
  rintro (⟨hs, hw⟩ | hn)
  · refine ⟨hst.mpr (.inl hs), fun h0 => ?_⟩
    rcases mrStart_returns j.returns with ⟨-, hnull, hc, -⟩ | ⟨h1, -⟩
    · exact JobRun.complete hc hnull hs hw
    · rw [h0] at h1
      cases h1
  · refine ⟨hst.mpr (.inr hn), fun h0 => ?_⟩
    rcases mrStart_returns j.returns with ⟨-, hnull, hc, -⟩ | ⟨h1, -⟩
    · rcases hn with he | hn
      · exact absurd hc (not_clean.mpr he)
      · rw [hnull] at hn
        cases hn
    · rw [h0] at h1
      cases h1

/-! ## Runs -/

/-- What the calls of the main process return in a run without failures. -/
def mainReply (d : Disk) (job : Job) (ends : Nat → Status) (v : MainView) : Io → IoRet
  | .log _ _ => .int 0
  | .writeN _ bs => .int bs.length
  | .sys (.pipe .mainToMapper) => .sys (.val (.fds job.mainToMapper.1 job.mainToMapper.2))
  | .sys (.pipe .reducerToMain) => .sys (.val (.fds job.reducerToMain.1 job.reducerToMain.2))
  | .sys (.pipe .mapperToReducer) => .sys (.val (.fds 7 8))
  | .sys (.fork child) => .sys (.val (.pid (job.pid child)))
  | .sys e => .sys (mainAnswer d (fun pid => some (ends pid)) v.1 v.2 e)

/-- And what they do. -/
def mainPost (d : Disk) (job : Job) (ends : Nat → Status) (v : MainView) (c : Io) (r : IoRet) : Option MainView :=
  if answers ends c r = true then
    match c, r with
    | .log _ _, .int r => if r = 0 then some v else none
    | .writeN fd bs, .int r =>
      if (bs ≠ [] → fd = job.mainToMapper.2) ∧ r = bs.length then some ({ v.1 with out := v.1.out ++ bs }, v.2) else none
    | .sys e, .sys x => v.1.serve d job (fun pid => some (ends pid)) v.2 e x
    | _, _ => none
  else none

theorem mainPost_spec {d : Disk} {job : Job} {ends : Nat → Status} (v : MainView) (c : Io) (r : IoRet) (v' : MainView)
    (h : mainPost d job ends v c r = some v') : answers ends c r = true ∧ liveEnv d job v c r v' := by
  unfold mainPost at h
  split at h
  · rename_i hans
    refine ⟨hans, .inr ?_⟩
    split at h
    · split at h
      · rename_i hr
        cases h
        exact ⟨.inl (congrArg IoRet.int hr), rfl⟩
      · cases h
    · split at h
      · rename_i hr
        cases h
        exact ⟨hr.1, congrArg IoRet.int hr.2, rfl⟩
      · cases h
    · exact ⟨_, rfl, .inl ⟨_, h⟩⟩
    · cases h
  · cases h

/-- A user's mapper that emits a pair for every line, and a reducer that emits a result for every token. -/
def emitsOne : Sys → User
  | .mapper _ | .reducer _ _ => .emit ⟨.a, .empty⟩ fun _ => .ret 0
  | _ => .ret 0

def xyArgs : StartArgs := ⟨some [108], some [97], some [98]⟩

/-- The main process, when the reducer writes `out`. -/
def xyMain (ends : Nat → Status) (out : Bytes) : Option (Trace × MainView × Leave) :=
  enactLoop (mainReply xyDisk lineJob ends) (mainPost xyDisk lineJob ends) (fun ph => (mrStartBlock ph).run) 8
    (.start, out) (mrStart xyArgs).run

theorem xy_returns (ends : Nat → Status) {out out' : Bytes} (ho : out' = out) (h : (xyMain ends out).any (fun x =>
      x.2.2 = .ret 0 ∧ x.2.1.1.out = wireOf [[120], [121]]) = true) :
    ∃ τ files unread, files.out = wireOf [[120], [121]] ∧ MrStartReturns ends xyArgs τ 0 ∧
      Walks (liveEnv xyDisk lineJob) (.start, out') τ (files, unread) := by
  subst ho
  obtain ⟨⟨τ, ⟨files, unread⟩, l⟩, hx, hq⟩ := (Option.any_eq_true _ _).mp h
  obtain ⟨rfl, hout⟩ := of_decide_eq_true hq
  obtain ⟨hl, hw⟩ := loop_of_enactLoop mainPost_spec .nil hx
  exact ⟨τ, files, unread, hout, hl, hw⟩

theorem xy_inputPath (path : Bytes) (h : xyArgs.inputPath = some path) : path = lineJob.inputPath := by
  cases h
  rfl

theorem xy_outputPath (path : Bytes) (h : xyArgs.outputPath = some path) : path = lineJob.outputPath := by
  cases h
  rfl

theorem xy_input : [fileXY].map (fun f => (f.path.bytes, f.contents)) = xyDisk.files lineJob.inputPath := rfl

/-- A run of the job on this file, with one worker in each child. -/
def xyRun (ends : Nat → Status) (τ : Trace) (files : MainFiles) (unread : Bytes)
    (mapper : ChildRun (mapperCode oneWorker) oneWorker sizeofFileLine files.out (ends lineJob.mapperPid))
    (reducer : ChildRun (reducerCode oneWorker) oneWorker sizeofPtr mapper.out (ends lineJob.reducerPid))
    (returns : MrStartReturns ends xyArgs τ 0)
    (heard : Walks (liveEnv xyDisk lineJob) (.start, reducer.out) τ (files, unread)) : JobRun where
  disk := xyDisk
  job := lineJob
  args := xyArgs
  mapperArgs := oneWorker
  reducerArgs := oneWorker
  input := [fileXY]
  ends := ends
  trace := τ
  result := 0
  files := files
  unread := unread
  mapper := mapper
  reducer := reducer
  inputPath := xy_inputPath
  outputPath := xy_outputPath
  input_eq := xy_input
  returns := returns
  heard := heard

section Children

variable {ω Φ : Type} {C : ProcessCode ω Φ} {args : PoolArgs} {size : Nat} {stdin : Bytes}

theorem child_reached {Cond : Hosted ω Φ × List (Tid × Msg) → Act Tid Val → Prop} {x : Hosted ω Φ × List (Tid × Msg)}
    (h : Reach (C.emitting args size stdin) Cond x) :
    ∀ y ∈ some x, Reach (C.emitting args size stdin) (fun _ _ => True) y := by
  intro y hy
  cases hy
  exact h.mono fun _ _ _ => trivial

theorem child_ended {x : Hosted ω Φ × List (Tid × Msg)} {c : Int} (h : x.1.threads.exitCode = some c) :
    ∀ y ∈ some x, ∀ c', Status.exited c = .exited c' → y.1.threads.exitCode = some c' := by
  intro y hy c' hc
  cases hy
  cases hc
  exact h

/-- A child that has come to its end at `x`, by returning `c`. -/
def ChildRun.to {Cond : Hosted ω Φ × List (Tid × Msg) → Act Tid Val → Prop} (x : Hosted ω Φ × List (Tid × Msg)) (c : Int)
    (h : Reach (C.emitting args size stdin) Cond x) (hc : x.1.threads.exitCode = some c) :
    ChildRun C args size stdin (.exited c) where
  last := some x
  reached := child_reached h
  ended := child_ended hc

/-- Turns of the threads, none of whose calls fail. -/
theorem wholeStep_of_keeps {workers : Nat} {x : Hosted ω Φ × List (Tid × Msg)} {a : Act Tid Val}
    (h : (a.ok && C.keeps workers x.1 a) = true) :
    (¬ PushFails x.1.threads a ∧ ¬ PopSlips x.1.threads a ∧ ¬ Abandoned workers x.1.threads) ∧
      EmitsGoOn x.1.threads a := by
  obtain ⟨hok, hkeeps⟩ := (Bool.and_eq_true _ _).mp h
  refine ⟨C.not_lost_of_keeps hkeeps, fun t m e f ha _ => ?_⟩
  subst ha
  cases hok

end Children

/-- Both children exit with 0. -/
def bothSucceed (_ : Nat) : Status := .exited 0

/-- The mapper exits with 1. -/
def mapperFails (pid : Nat) : Status := if pid = lineJob.mapperPid then .exited 1 else .exited 0

/-- The pairs of the two lines. -/
def pairsAA : List Msg := [⟨.a, .empty⟩, ⟨.a, .empty⟩]

theorem bothSucceed_succeeded {τ : Trace} (h : MrStartReturns bothSucceed xyArgs τ 0) : Succeeded bothSucceed τ := by
  rcases mrStart_returns h with ⟨-, -, -, hb⟩ | ⟨h, -⟩
  · exact ⟨hb, fun _ _ _ => rfl⟩
  · cases h

theorem failure_propagation_xy : ∃ j : JobRun, j.result = 0 ∧ (allLines j.input).length = 2 ∧ j.Propagates := by
  obtain ⟨m, hm, hmc, hmo⟩ := reach_of_playP
    (T := (mapperCode oneWorker).emitting oneWorker sizeofFileLine (wireOf [[120], [121]]))
    (P := fun x a => a.ok && (mapperCode oneWorker).keeps 1 x.1 a) (fun x b => (mapperCode oneWorker).turn emitsOne x.1 b)
    (fun x => x.1.threads.exitCode = some 0 ∧ x.1.threads.mem.stdout.out = pairsAA.flatMap Msg.wire)
    (turns .controller 28 ++ turns (.worker 0) 13 ++ turns .controller 14 ++ turns (.worker 0) 19 ++
      turns .controller 8) (by decide +kernel)
  obtain ⟨r, hr, hrc, hro⟩ := reach_of_playP
    (T := (reducerCode oneWorker).emitting oneWorker sizeofPtr (pairsAA.flatMap Msg.wire))
    (P := fun x a => a.ok && (reducerCode oneWorker).keeps 1 x.1 a) (fun x b => (reducerCode oneWorker).turn emitsOne x.1 b)
    (fun x => x.1.threads.exitCode = some 0 ∧ x.1.threads.mem.stdout.out = Msg.wire ⟨.a, .empty⟩)
    (turns .controller 36 ++ turns (.worker 0) 24 ++ turns .controller 8) (by decide +kernel)
  obtain ⟨τ, ⟨rest, out, closed, file, waited⟩, unread, rfl, hret, hw⟩ :=
    xy_returns bothSucceed hro (by decide +kernel)
  rw [← hmo] at hr
  let j : JobRun := xyRun bothSucceed τ _ unread (.to m 0 hm hmc) (.to r 0 hr hrc) hret hw
  refine ⟨j, rfl, rfl, (failure_propagation j).2 (.inl ⟨bothSucceed_succeeded hret, ?_⟩)⟩
  · have hnamed : xyDisk.Named lineJob.inputPath := fun h => by cases h
    refine ⟨hnamed, ⟨m, rfl, ?_⟩, ⟨r, rfl, ?_⟩⟩
    · exact hm.mono fun x a h => wholeStep_of_keeps h
    · exact hr.mono fun x a h => ⟨(wholeStep_of_keeps h).1.2, (wholeStep_of_keeps h).2⟩

/-- The reducer, when the mapper has written nothing. -/
theorem reducer_idle {stdin : Bytes} (h : stdin = []) :
    ∃ r, Reach ((reducerCode oneWorker).emitting oneWorker sizeofPtr stdin) (fun _ _ => true = true) r ∧
      r.1.threads.exitCode = some 0 ∧ r.1.threads.mem.stdout.out = [] := by
  subst h
  exact reach_of_playP (T := (reducerCode oneWorker).emitting oneWorker sizeofPtr []) (P := fun _ _ => true)
    (fun x b => (reducerCode oneWorker).turn emitsOne x.1 b)
    (fun x => x.1.threads.exitCode = some 0 ∧ x.1.threads.mem.stdout.out = [])
    (turns .controller 20 ++ turns (.worker 0) 16 ++ turns .controller 8) (by decide +kernel)

/-- **`mr_start` returns 0 although its mapper has exited with `EXIT_FAILURE`**: the first `mr_log` of the mapper fails. -/
theorem mrStart_ignores_status : ¬ ∀ j : JobRun, j.Propagates := by
  intro hall
  obtain ⟨m, hm, hmc, hmo⟩ := reach_of_playP
    (T := (mapperCode oneWorker).emitting oneWorker sizeofFileLine (wireOf [[120], [121]])) (P := fun _ _ => true)
    (fun x b => (mapperCode oneWorker).turn emitsOne x.1 b)
    (fun x => x.1.threads.exitCode = some 1 ∧ x.1.threads.mem.stdout.out = []) [.fail .controller] (by decide +kernel)
  obtain ⟨r, hr, hrc, hro⟩ := reducer_idle hmo
  obtain ⟨τ, ⟨rest, out, closed, file, waited⟩, unread, rfl, hret, hw⟩ :=
    xy_returns mapperFails hro (by decide +kernel)
  let j : JobRun := xyRun mapperFails τ _ unread (.to m 1 hm hmc) (.to r 0 hr hrc) hret hw
  rcases mrStart_returns hret with ⟨-, -, hc, -⟩ | ⟨h, -⟩
  · have hexited : j.ends (j.job.pid .mapper) = .exited 0 := JobRun.exited ((hall j).1.1 rfl) hc (by simp)
    cases hexited
  · cases h

/-- **Nor does `EXIT_SUCCESS` of both children help**: the user's mapper fails for the first line, and no worker is left for
the second. -/
theorem mrStart_loses_line : ∃ j : JobRun, j.result = 0 ∧ Succeeded j.ends j.trace ∧ ¬ j.Complete := by
  obtain ⟨m, hm, hmc, hmo, hcalls⟩ := reach_of_playP
    (T := (mapperCode oneWorker).emitting oneWorker sizeofFileLine (wireOf [[120], [121]])) (P := fun _ _ => true)
    (fun x b => (mapperCode oneWorker).turn failsOnX x.1 b)
    (fun x => x.1.threads.exitCode = some 0 ∧ x.1.threads.mem.stdout.out = [] ∧
      (callsOf x.1.threads.mem.user.events).length = 1)
    (turns .controller 15 ++ turns (.worker 0) 7 ++ turns .controller 12 ++ turns (.worker 0) 11 ++
      turns .controller 30) (by decide +kernel)
  obtain ⟨r, hr, hrc, hro⟩ := reducer_idle hmo
  obtain ⟨τ, ⟨rest, out, closed, file, waited⟩, unread, rfl, hret, hw⟩ :=
    xy_returns bothSucceed hro (by decide +kernel)
  refine ⟨xyRun bothSucceed τ _ unread (.to m 0 hm hmc) (.to r 0 hr hrc) hret hw, rfl, ?_, ?_⟩
  · exact bothSucceed_succeeded hret
  · rintro ⟨x, hx, -, -, -, -, hp, -⟩
    cases hx
    have := hp.length_eq
    rw [hcalls] at this
    cases this

end MrLib
