import MrLib.Pipeline.Flow
import MrLib.Process.MapperOutput
import MrLib.Process.ReducerOutput

/-!
# The output of the pipeline

When `mr_start` has returned, in a run of the three processes in which no call fails, the output file has the results of
the user's functions: its records are what the user's reducer emits for the tokens and values that the user's mapper has
emitted for the lines of the input (`pipeline_output`, `pipeline_output_all`). The threads and the processes may take their
steps in any order, and the pipes may hold any number of bytes.
-/

namespace MrLib

open Conc Prog

/-! ## The end of a run -/

theorem fileWires_of_namedWires : ∀ {files : List InputFile} {w : Bytes},
    NamedWires (files.map fun f => (f.path.bytes, f.contents)) w → FileWires files w
  | [], _, h => by
    cases h
    exact .nil
  | f :: files, _, h => by
    rw [List.map_cons] at h
    cases h with
    | cons h hs => exact .cons (.mk h) (fileWires_of_namedWires hs)

section End

variable {P : Plant} {user : Sys → User} {files : List InputFile} {s : Pipeline} {l : Leave}

theorem loc_of_exitCode {ω Φ : Type} {s : PoolState ω Φ} (h : s.exitCode.isSome = true) :
    ∃ c, s.exitCode = some c ∧ s.loc .controller = .done c := by
  unfold PoolState.exitCode at h ⊢
  split at h
  · rename_i c hc
    exact ⟨c, rfl, hc⟩
  · cases h

/-- When `mr_start` has returned both children have ended, and the pipes have been read to their ends. -/
theorem Piped.finished (h : Piped P user s) (hl : s.main.at_ = .inr l) :
    l = .ret 0 ∧ s.mapper.exitCode.isSome = true ∧ s.reducer.exitCode.isSome = true ∧
      Delivered P.disk P.job s.reducer.mem.stdout.out s.main.files := by
  obtain ⟨τ, o, part, hat, hout, hw⟩ := h.main.way
  rw [hl] at hat
  cases hat with
  | left ht =>
    have hout : s.main.files.out = o := by simpa using hout
    have hw := hw [] fun _ => rfl
    rw [List.append_nil, List.append_nil, ← hout] at hw
    obtain ⟨-, rfl, hd⟩ := Trod.safe (safe_mrStartWork rfl rfl) (fun ph v hph => safe_mrStartBlock ph hph) ht hw
    have hmapper := h.waited _ hd.mapper
    have hreducer := h.waited _ hd.reducer
    unfold Pipeline.ended at hmapper hreducer
    rw [if_pos rfl, Option.isSome_map] at hmapper
    rw [if_neg P.pids.symm, if_pos rfl, Option.isSome_map] at hreducer
    exact ⟨rfl, hmapper, hreducer, hd⟩

/-- How such a run has ended: the state of the mapper's queue, and what the two children have emitted. -/
structure PipelineEnd (P : Plant) (user : Sys → User) (files : List InputFile) (s : Pipeline) (g : WorkPool.State FileLine)
    (log : List (Tid × Msg)) (results : List Msg) : Prop where
  mapper : MapperEnd P.mapper user files ⟨s.mapper, s.toMapper⟩ g log
  reducer : ReducerEnd user (log.map Prod.snd) ⟨s.reducer, s.toReducer⟩ results
  file : OutputOf results s.main.files.file

theorem pipeline_end (hfiles : files.map (fun f => (f.path.bytes, f.contents)) = P.disk.input P.job.inputPath)
    (hmapper : P.mapper.Fits sizeofFileLine) (hreducer : P.reducer.Fits sizeofPtr)
    (hmany : ((allLines files).flatMap fun l => (user (.mapper l)).emits).length < 2 ^ 58)
    (h : Reach (pipeline P) (CalmPipe P user) s) (hl : s.main.at_ = .inr l) :
    l = .ret 0 ∧ s.mapper.exitCode = some exitSuccess ∧ s.reducer.exitCode = some exitSuccess ∧
      ∃ g log results, PipelineEnd P user files s g log results := by
  have hp := piped_of_reach h
  obtain ⟨rfl, hm, hr, hd⟩ := hp.finished hl
  obtain ⟨c, hmc, hml⟩ := loc_of_exitCode hm
  obtain ⟨c', hrc, hrl⟩ := loc_of_exitCode hr
  -- the mapper has read what was sent
  have hw : FileWires files s.main.files.out := fileWires_of_namedWires (hfiles ▸ hd.sent)
  have hmreach := hp.mapper.reach [] fun _ => rfl
  simp only [List.append_nil] at hmreach
  obtain ⟨rfl, g, log, hmend⟩ := mapper_end hmapper hw hmreach hml
  -- and the reducer what the mapper has written
  have hlen : (log.map Prod.snd).length < 2 ^ 58 := by
    refine lt_of_le_of_lt ?_ hmany
    rw [hmend.perm.length_eq, ← (hmend.lines.flatMap_right _).length_eq, List.flatMap_append, List.length_append]
    exact Nat.le_add_right _ _
  have hrreach := hp.reducer.reach [] fun _ => rfl
  have hstdin : s.mapper.mem.stdout.out = (log.map Prod.snd).flatMap Msg.wire := hmend.out
  simp only [List.append_nil, hstdin] at hrreach
  obtain ⟨rfl, results, hrend⟩ := reducer_end hreducer hlen hrreach hrl
  refine ⟨rfl, hmc, hrc, g, log, results, hmend, hrend, ?_⟩
  rw [hd.arrived results hrend.out]
  exact outputOf_records results

/-- **The output file.** What is in it when `mr_start` has returned are the results for the pairs that the user's mapper
has emitted for the lines of the input. A line can be left in the mapper's queue only when the user's mapper has failed
for as many lines as there are mapper threads. -/
theorem pipeline_output (P : Plant) (user : Sys → User) (files : List InputFile)
    (hfiles : files.map (fun f => (f.path.bytes, f.contents)) = P.disk.input P.job.inputPath)
    (hmapper : P.mapper.Fits sizeofFileLine) (hreducer : P.reducer.Fits sizeofPtr)
    (hmany : ((allLines files).flatMap fun l => (user (.mapper l)).emits).length < 2 ^ 58) {s : Pipeline}
    (h : Reach (pipeline P) (CalmPipe P user) s) {l : Leave} (hl : s.main.at_ = .inr l) :
    l = .ret 0 ∧ s.mapper.exitCode = some exitSuccess ∧ s.reducer.exitCode = some exitSuccess ∧
      ∃ (called left : List FileLine) (pairs results : List Msg), (called ++ left).Perm (allLines files) ∧
        (left ≠ [] → left.length ≤ P.mapper.queueSize ∧
          P.mapper.threads ≤ called.countP fun l => (user (.mapper l)).result = -1) ∧
        pairs.Perm (called.flatMap fun l => (user (.mapper l)).emits) ∧
        results.Perm ((reducerCalls (pairs.map Msg.pair)).flatMap fun e => (user e).emits) ∧
        OutputOf results s.main.files.file := by
  obtain ⟨rfl, hmc, hrc, g, log, results, hend⟩ := pipeline_end hfiles hmapper hreducer hmany h hl
  refine ⟨rfl, hmc, hrc, _, g.stack, _, results, hend.mapper.lines, fun hne => ?_, hend.mapper.perm, hend.reducer.perm,
    hend.file⟩
  exact ⟨hend.mapper.pooled.good.inv.stack_le, hend.mapper.failures hne⟩

/-- **No line is left** if the user's mapper fails for fewer lines than there are mapper threads. -/
theorem pipeline_output_all (P : Plant) (user : Sys → User) (files : List InputFile)
    (hfiles : files.map (fun f => (f.path.bytes, f.contents)) = P.disk.input P.job.inputPath)
    (hmapper : P.mapper.Fits sizeofFileLine) (hreducer : P.reducer.Fits sizeofPtr)
    (hmany : ((allLines files).flatMap fun l => (user (.mapper l)).emits).length < 2 ^ 58)
    (hu : (allLines files).countP (fun l => (user (.mapper l)).result = -1) < P.mapper.threads) {s : Pipeline}
    (h : Reach (pipeline P) (CalmPipe P user) s) {l : Leave} (hl : s.main.at_ = .inr l) :
    ∃ pairs results : List Msg, pairs.Perm ((allLines files).flatMap fun l => (user (.mapper l)).emits) ∧
      results.Perm ((reducerCalls (pairs.map Msg.pair)).flatMap fun e => (user e).emits) ∧
      OutputOf results s.main.files.file := by
  obtain ⟨-, -, -, g, log, results, hend⟩ := pipeline_end hfiles hmapper hreducer hmany h hl
  have hlines := hend.mapper.lines
  rw [hend.mapper.none_left hu, List.append_nil] at hlines
  exact ⟨_, results, hend.mapper.perm.trans (hlines.flatMap_right _), hend.reducer.perm, hend.file⟩

end End

/-! ## A run -/

/-- A user's mapper that emits every line as a value of `a`, and a reducer that emits the values joined. -/
def joinsLines : Sys → User
  | .mapper line => .emit ⟨.a, .ofBytes line.line⟩ fun _ => .ret 0
  | .reducer _ values => .emit ⟨.a, .ofBytes values.flatten⟩ fun _ => .ret 0
  | _ => .ret 0

theorem objXY_fits : ([120, 10, 121] : Bytes).length ≤ ptrdiffMax := by decide

theorem fileXY_fits : ∀ l ∈ linesOf [120, 10, 121], l.length < ptrdiffMax := by decide

/-- A file of the lines `x` and `y`. -/
def fileXY : InputFile := ⟨.a, [120, 10, 121], objXY_fits, fileXY_fits⟩

/-- A disk with this file. -/
def xyDisk : Disk where
  find path := if path = [97] then some (.file ⟨[120, 10, 121], objXY_fits⟩) else none
  list _ := []

/-- It is mapped and reduced with one worker each. -/
def lineJob : Job := ⟨[97], [98], (3, 4), (5, 6), 1, 2⟩

theorem lineJob_pids : lineJob.mapperPid ≠ lineJob.reducerPid := by decide

def xyPlant : Plant := ⟨xyDisk, lineJob, oneWorker, oneWorker, 64, lineJob_pids⟩

/-- `n` turns of a process. -/
def mainTurns (n : Nat) : List PipeTurn := List.replicate n .main

def mapperTurns (t : Tid) (n : Nat) : List PipeTurn := (turns t n).map .mapper

def reducerTurns (t : Tid) (n : Nat) : List PipeTurn := (turns t n).map .reducer

theorem reach_pipe {P : Plant} {user : Sys → User} (Q : Pipeline → Prop) [DecidablePred Q] (ts : List PipeTurn)
    (h : (playP (pipeline P) (fun _ a => a.ok) (Pipeline.turn P user) (pipeline P).init ts).any (fun s => Q s) = true) :
    ∃ s, Reach (pipeline P) (CalmPipe P user) s ∧ Q s := by
  obtain ⟨s, hs, hq⟩ := (Option.any_eq_true _ _).mp h
  exact ⟨s, reach_playP_of calmPipe_turn .init hs, of_decide_eq_true hq⟩

/-- The reducer's controller is up before the mapper's, and the main process has sent all its input before a line is mapped. -/
theorem reach_xy : ∃ s, Reach (pipeline xyPlant) (CalmPipe xyPlant joinsLines) s ∧ s.main.at_.isRight = true :=
  reach_pipe (fun s => s.main.at_.isRight = true) (reducerTurns .controller 8 ++ mapperTurns .controller 16 ++
    mainTurns 25 ++ mapperTurns (.worker 0) 9 ++ mapperTurns .controller 9 ++ [.mapper (.wake .controller (.worker 0))] ++
    mapperTurns .controller 8 ++ mapperTurns (.worker 0) 1 ++ [.mapper (.wake (.worker 0) .controller)] ++
    mapperTurns (.worker 0) 9 ++ reducerTurns .controller 9 ++ mapperTurns .controller 1 ++
    [.mapper (.wake .controller (.worker 0))] ++ mapperTurns .controller 8 ++ mapperTurns (.worker 0) 18 ++
    reducerTurns .controller 6 ++ mapperTurns .controller 8 ++ reducerTurns .controller 15 ++
    reducerTurns (.worker 0) 25 ++ reducerTurns .controller 8 ++ mainTurns 20) (by decide +kernel)

theorem pipeline_output_xy : ∃ (s : Pipeline) (called left : List FileLine) (pairs results : List Msg),
    Reach (pipeline xyPlant) (CalmPipe xyPlant joinsLines) s ∧ (called ++ left).Perm (allLines [fileXY]) ∧
      (allLines [fileXY]).length = 2 ∧ pairs.Perm (called.flatMap fun l => (joinsLines (.mapper l)).emits) ∧
      results.Perm ((reducerCalls (pairs.map Msg.pair)).flatMap fun e => (joinsLines e).emits) ∧
      OutputOf results s.main.files.file := by
  obtain ⟨s, hr, hl⟩ := reach_xy
  obtain ⟨l, hl⟩ := Sum.isRight_iff.mp hl
  obtain ⟨-, -, -, called, left, pairs, results, hp, -, hpairs, hresults, hout⟩ :=
    pipeline_output xyPlant joinsLines [fileXY] rfl fits_oneWorker ⟨by decide, by decide⟩ (by decide) hr hl
  exact ⟨s, called, left, pairs, results, hr, hp, rfl, hpairs, hresults, hout⟩

end MrLib
