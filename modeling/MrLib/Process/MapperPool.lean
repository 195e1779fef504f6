import MrLib.Process.Controller
import MrLib.Process.Mapper
import MrLib.Process.Simulation

/-!
# The mapper process is a pool

`mapperContract`: a worker that has called the user's mapper releases its line, and stops if the mapper has failed; the
controller holds a line from the time it was received until it is pushed, and drops it if the push fails.
-/

namespace MrLib

open Conc Conc.WorkPool

/-- The call of the user's mapper. -/
def mapperJob (_ : Heap FileLine) (l : FileLine) : Sys := .mapper l

/-- The controller has created its workers, and has no line. -/
structure Intake (P : Spec) (v : Ctl FileLine × Seen FileLine) : Prop where
  created : v.1.created = P.workers
  shut : v.1.shut = false
  held : v.1.held = []
  keeping : v.1.Keeping

def mapperExit (P : Spec) (code : Int) (v : Ctl FileLine × Seen FileLine) : Prop := code = 0 → Returned P v.1

/-- The controller at the head of its loop. -/
def mapperCtl (P : Spec) : MapperPhase → Ctl FileLine × Seen FileLine → Prop
  | .receive _, v => Intake P v
  | .work, _ => False

/-- A worker at the head of its loop. -/
def mapperWk : MapperPhase → Wk FileLine × Heap FileLine → Prop
  | .work, v => v.1 = .idle
  | .receive _, _ => False

variable (args : PoolArgs)

theorem mapperAllocate_ctl {P : Spec} (v : Ctl FileLine × Seen FileLine) :
    (mapperAllocate args).run.Wp (ctlEnv P) (Leaves (fun v' => v' = v) (mapperExit P)) v := by
  have hX : mapperExit P exitFailure v := nofun
  refine wp_io fun r => wp_exitCheck (fun _ => ?_) fun _ => wp_returns hX
  refine wp_io fun r => wp_exitCheck (fun _ => ?_) fun _ => wp_io fun _ => wp_returns hX
  refine wp_io fun b => wp_ite (fun _ => wp_io fun _ => wp_returns hX) fun _ => ?_
  refine wp_io fun threads => wp_io fun tArgs => ?_
  cases threads with
  | none => exact wp_io fun _ => wp_returns hX
  | some threads =>
    cases tArgs with
    | none => exact wp_io fun _ => wp_returns hX
    | some tArgs => exact rfl

theorem mapperStart_ctl {v : Ctl FileLine × Seen FileLine} (threads tArgs : Bytes) (hv : v = (.start, .empty)) :
    (mapperStart args threads tArgs).run.Wp (ctlEnv (args.spec true))
      (Ends (mapperCtl (args.spec true)) (mapperExit (args.spec true))) v := by
  subst hv
  have hX : ∀ v, mapperExit (args.spec true) exitFailure v := fun v => nofun
  refine wp_th_bind ((createWorkers_ctl (X := mapperExit (args.spec true)) args.threads 0 _ rfl (Nat.zero_add _) rfl
    fun v' _ => show (pure () : Th FileLine Unit).run.Wp _ _ v' from hX v').mono fun x v' h => ?_)
  cases x with
  | ok _ =>
    subst h
    exact ⟨rfl, rfl, rfl, fun _ => rfl⟩
  | error c => exact h

theorem mapperMain_ctl : (mapperProcessMain args).run.Wp (ctlEnv (args.spec true))
    (Ends (mapperCtl (args.spec true)) (mapperExit (args.spec true))) (.start, .empty) := by
  refine wp_th_bind ((mapperAllocate_ctl args _).mono fun x v h => ?_)
  cases x with
  | ok blocks => exact mapperStart_ctl args _ _ h
  | error c => exact h

theorem mapperFinish_ctl {res : Int} {v : Ctl FileLine × Seen FileLine} (hv : Intake (args.spec true) v) :
    (mapperFinish args res).run.Wp (ctlEnv (args.spec true))
      (Ends (mapperCtl (args.spec true)) (mapperExit (args.spec true))) v := by
  have hX : ∀ v, mapperExit (args.spec true) exitFailure v := fun v => nofun
  refine wp_close fun r _ => wp_exitCheck (fun _ => ?_) fun _ => wp_io fun _ => wp_returns (hX _)
  refine wp_th_bind ((joinWorkers_ctl _ _ args.threads 0 _).mono fun x v' h => ?_)
  cases x with
  | error c =>
    obtain ⟨rfl, -⟩ := h
    exact hX v'
  | ok _ =>
    obtain ⟨hj, hall⟩ := h
    obtain ⟨h1, h2, h3, h4, -⟩ := hj.fields
    refine wp_exitCheck (fun _ => ?_) fun _ => wp_io fun _ => wp_returns (hX _)
    refine wp_io fun r => wp_exitCheck (fun _ => wp_returns fun _ => ?_) fun _ => wp_returns (hX _)
    exact ⟨h1.trans hv.created, fun i hi => hall i (Nat.zero_le i) (by rw [Nat.zero_add]; exact hi), h2.trans hv.held,
      fun hr => h3.trans (hv.keeping (h4.symm.trans hr))⟩

theorem mapperReceive_ctl {receiver : Receiver} {v : Ctl FileLine × Seen FileLine} (hv : Intake (args.spec true) v) :
    (mapperReceive args receiver).run.Wp (ctlEnv (args.spec true))
      (Ends (mapperCtl (args.spec true)) (mapperExit (args.spec true))) v := by
  refine wp_io fun x => ?_
  cases x with
  | again receiver => exact hv
  | eof receiver => exact mapperFinish_ctl args hv
  | failed => exact mapperFinish_ctl args hv
  | line line receiver =>
    have hheld : v.1.held ++ [line] = line :: [] := by rw [hv.held]; rfl
    refine wp_note_came (wp_push hv.shut hv.created hv.keeping hheld ?_ ?_)
    · exact wp_ite (fun h => absurd h (by decide)) fun _ => ⟨hv.created, hv.shut, rfl, hv.keeping⟩
    · refine wp_ite (fun _ => wp_io fun _ => wp_note_released hheld ?_) fun h => absurd rfl h
      exact ⟨hv.created, hv.shut, rfl, nofun⟩

theorem mapperWorker_wk : ∃ c k, mapperWorker.run = .call (.io c) k ∧
    ∀ h, (Prog.call (.io c) k).Wp (wkEnv (args.spec true) mapperJob) (Ends mapperWk fun _ v => v.1.out = true)
      (.idle, h) := by
  have hrun : ∃ k, mapperWorker.run = .call (.io (.log .info "Mapper worker thread started")) k := run_io_call
  obtain ⟨k, hk⟩ := hrun
  refine ⟨_, k, hk, fun h => ?_⟩
  rw [← hk]
  refine wp_log_wk fun n => ?_
  by_cases hn : n = -1
  · subst hn
    exact wp_exitCheck (fun h => absurd rfl h) fun _ => wp_returns rfl
  · exact wp_exitCheck (fun _ => by simp [stumble, hn]; rfl) fun h => absurd h hn

theorem mapperWork_wk {v : Wk FileLine × Heap FileLine} (hv : v.1 = .idle) :
    mapperWork.run.Wp (wkEnv (args.spec true) mapperJob) (Ends mapperWk fun _ v => v.1.out = true) v := by
  refine wp_pop hv (fun line => ?_) ?_ ?_
  · refine wp_note_called rfl rfl (wp_callUser (fun _ => rfl) fun r => wp_exitCheck (fun _ => ?_) fun _ => ?_)
    · exact wp_note_done rfl rfl
    · refine wp_th_bind (wp_note_failed rfl (wp_logError_wk (by simp) ?_))
      exact wp_note_erred (k := pure) rfl rfl
  · exact wp_note_left (fun _ => rfl) (wp_log_wk fun n => wp_exitCheck (fun _ => wp_returns rfl) fun _ => wp_returns rfl)
  · exact wp_note_left nofun (wp_log_wk fun n => wp_exitCheck (fun _ => wp_returns rfl) fun _ => wp_returns rfl)

/-- **The mapper process is a pool.** -/
def mapperContract : Contract (mapperCode args) (args.spec true) mapperJob where
  workers_pos := args.threads_pos
  ctlPhase := mapperCtl (args.spec true)
  ctlExit := mapperExit (args.spec true)
  wkPhase := mapperWk
  main := mapperMain_ctl args
  ctlBody ph v h := by
    cases ph with
    | receive receiver => exact mapperReceive_ctl args h
    | work => exact h.elim
  worker := mapperWorker_wk args
  wkBody ph v h := by
    cases ph with
    | receive receiver => exact h.elim
    | work => exact mapperWork_wk args h

end MrLib
