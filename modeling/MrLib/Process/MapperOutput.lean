import MrLib.Process.MapperRuns
import MrLib.Process.Output

/-!
# What the mapper process puts out

`mapper_output`: when the mapper process has ended, in a run on the stream of lines of some files in which no call fails,
it has returned `EXIT_SUCCESS`; the user's mapper was called once for every line of every file, but for at most
`queue_size` lines that are left when it has failed for as many lines as there are workers; and the standard output holds
the pairs it has emitted, each once and whole.

With one worker and a queue for one line the pairs are in the order of the lines (`mapper_output_ordered`).
-/

namespace MrLib

open Conc Conc.WorkPool

/-! ## The stream of lines -/

/-- What one iteration of `receive_line_from_main_fd` leads to when the lines `es` are to come. -/
def Arrives (es : List FileLine) (x : RecvLine) (s : Bytes) : Prop :=
  match x with
  | .again r => InStep es r s
  | .line l r => ∃ es', es = l :: es' ∧ InStep es' r s
  | .eof _ => es = []
  | .failed => False

theorem AfterHeader.arrives {path : CString} {m : Nat} {fs : List InputFile} {ls : List Bytes} {x : RecvLine} {s : Bytes}
    (h : AfterHeader path m fs ls x s) : Arrives (numbered path m ls ++ allLines fs) x s := by
  cases ls with
  | nil =>
    obtain ⟨r, rfl, hr⟩ := h
    exact .between hr
  | cons l ls =>
    obtain ⟨r, rfl, hr⟩ := h
    exact ⟨_, rfl, .inFile hr⟩

/-- **An iteration in step.** -/
theorem receiveLine_inStep (fd : Nat) {es : List FileLine} {receiver : Receiver} {s : Bytes} (h : InStep es receiver s) :
    (receiveLineFromMainFd fd receiver).Wp StreamEnv (Arrives es) s := by
  cases h with
  | @between fs _ _ h =>
    cases fs with
    | nil =>
      refine (receiveLine_eof h).mono ?_
      rintro x s' ⟨r, rfl, -⟩
      rfl
    | cons f fs => exact (receiveLine_next h).mono fun x s' hx => hx.arrives
  | inFile h =>
    rw [receiveLineFromMainFd, if_neg (by simp [h.receiver])]
    exact (receiveLineHeader_spec h).mono fun x s' hx => hx.arrives

/-! ## The threads -/

section

variable {args : PoolArgs} {user : Sys → User} {files : List InputFile} {w : Bytes}

/-- The user's mapper has failed only where it returns -1. -/
def FailsAsItMay (user : Sys → User) (e : Event FileLine) : Prop :=
  ∀ x, e = .failed x → (user (.mapper x)).result = -1

/-- How the controller of the mapper process ends, or comes to a cut: it has received what the files begin with. -/
def mapperCtlCalm (user : Sys → User) (files : List InputFile) (x : Except Int MapperPhase) (v : View FileLine) : Prop :=
  emittedBy user v.events = [] ∧ match x with
  | .ok (.receive r) => ∃ es, v.events.flatMap Event.coming ++ es = allLines files ∧ InStep es r v.stdin
  | .ok .work => False
  | .error c => c = exitSuccess ∧ v.events.flatMap Event.coming = allLines files

/-- How a worker does: what it has emitted is what its calls of the user's mapper emit. -/
def mapperWkCalm (user : Sys → User) (x : Except Int MapperPhase) (v : View FileLine) : Prop :=
  v.emits = emittedBy user v.events ∧ v.events.flatMap Event.coming = [] ∧ ∀ r, x ≠ .ok (.receive r)

theorem mapperAllocate_calm (hfit : args.Fits sizeofFileLine) {v : View FileLine} :
    (mapperAllocate args).run.Wp (calmEnv user (FailsAsItMay user) .controller)
      (fun x v' => ∃ threads tArgs, x = .ok (threads, tArgs) ∧ args.Blocks threads tArgs ∧ v' = v) v := by
  refine wp_log_calm (wp_exitCheck (fun _ => ?_) (fun h => absurd h (by decide)))
  refine wp_calmIo (mrQueueInitCalls_calm hfit.queue ?_)
  refine wp_exitCheck (fun _ => ?_) (fun h => absurd h (by decide))
  refine wp_allocates_calm (.inr (.inl rfl)) ?_
  refine wp_ite (fun h => absurd h (by decide)) fun _ => ?_
  exact wp_blocks_calm hfit fun threads tArgs hb => ⟨threads, tArgs, rfl, hb, rfl⟩

theorem mapperMain_calm (hfit : args.Fits sizeofFileLine) (hw : FileWires files w) :
    (mapperProcessMain args).run.Wp (calmEnv user (FailsAsItMay user) .controller) (mapperCtlCalm user files) (.start w) := by
  refine wp_th_bind ((mapperAllocate_calm hfit).mono ?_)
  rintro _ _ ⟨threads, tArgs, rfl, hb, rfl⟩
  refine wp_th_bind ((createWorkers_calm _ 0 _ (by rw [Nat.zero_add]; exact (hfit.slots hb).ge)).mono ?_)
  rintro _ _ ⟨rfl, rfl⟩
  exact ⟨rfl, _, rfl, .between ⟨rfl, hw⟩⟩

theorem mapperFinish_calm {v : View FileLine} (h1 : emittedBy user v.events = [])
    (h2 : v.events.flatMap Event.coming = allLines files) :
    (mapperFinish args 1).run.Wp (calmEnv user (FailsAsItMay user) .controller) (mapperCtlCalm user files) v := by
  refine wp_close_calm (wp_exitCheck (fun _ => ?_) (fun h => absurd h (by decide)))
  refine wp_th_bind ((joinWorkers_calm _ _ _).mono ?_)
  rintro _ _ ⟨rfl, rfl⟩
  refine wp_exitCheck (fun _ => ?_) (fun h => absurd h (by decide))
  exact wp_log_calm (wp_exitCheck (fun _ => ⟨h1, rfl, h2⟩) (fun h => absurd h (by decide)))

theorem mapperReceive_calm {r : Receiver} {v : View FileLine} (h : mapperCtlCalm user files (.ok (.receive r)) v) :
    (mapperReceive args r).run.Wp (calmEnv user (FailsAsItMay user) .controller) (mapperCtlCalm user files) v := by
  obtain ⟨h1, es, hes, hstep⟩ := h
  refine wp_calmIo (wp_stream ((receiveLine_inStep _ hstep).mono fun x st hx => ?_))
  cases x with
  | again r => exact ⟨h1, es, hes, hx⟩
  | line l r =>
    obtain ⟨es', rfl, hx⟩ := hx
    refine wp_note_calm (by simp [FailsAsItMay]) (wp_push_calm ?_)
    refine wp_ite (fun h => absurd h (by decide)) fun _ => ⟨?_, es', ?_, hx⟩
    · rw [emittedBy_append, h1]
      rfl
    · rw [List.flatMap_append, ← hes]
      simp [Event.coming]
  | eof r =>
    obtain rfl : es = [] := hx
    rw [List.append_nil] at hes
    exact mapperFinish_calm h1 hes
  | failed => exact hx.elim

theorem mapperWorker_calm {i : Nat} :
    mapperWorker.run.Wp (calmEnv user (FailsAsItMay user) (.worker i)) (mapperWkCalm user) (.start []) := by
  refine wp_log_calm (wp_exitCheck (fun _ => ⟨rfl, rfl, ?_⟩) (fun h => absurd h (by decide)))
  simp

theorem mapperWork_calm {i : Nat} {v : View FileLine}
    (h : mapperWkCalm user (.ok .work) v) :
    mapperWork.run.Wp (calmEnv user (FailsAsItMay user) (.worker i)) (mapperWkCalm user) v := by
  obtain ⟨h1, h2, -⟩ := h
  have hend : (do
      note (.left 1)
      syscallExitCheck (← mrLogInfo "Mapper worker thread finished") (pure ())
      returns exitSuccess : Th FileLine MapperPhase).run.Wp (calmEnv user (FailsAsItMay user) (.worker i)) (mapperWkCalm user)
        v := by
    refine wp_note_calm (by simp [FailsAsItMay]) (wp_log_calm (wp_exitCheck (fun _ => ⟨?_, ?_, ?_⟩) fun h =>
      absurd h (by decide)))
    · rw [emittedBy_append, h1]
      exact (List.append_nil _).symm
    · rw [List.flatMap_append, h2]
      rfl
    · simp
  refine wp_pop_calm (fun l => ?_) ?_ hend
  · refine wp_note_calm (by simp [FailsAsItMay]) (wp_callUser_calm rfl ?_)
    refine wp_exitCheck (fun _ => ?_) fun hfail => ?_
    · refine wp_note_calm (by simp [FailsAsItMay]) ⟨?_, ?_, ?_⟩
      · simp [emittedBy, Event.emits, h1]
      · simp [Event.coming] at h2 ⊢
        exact h2
      · simp
    · refine wp_th_bind (wp_note_calm (by simpa [FailsAsItMay] using hfail) (wp_logError_calm ?_))
      refine wp_note_calm (k := pure) (by simp [FailsAsItMay]) ⟨?_, ?_, ?_⟩
      · simp [emittedBy, Event.emits, h1]
      · simp [Event.coming] at h2 ⊢
        exact h2
      · simp
  · exact wp_stuck_calm fun r => ⟨h1, h2, by simp⟩

/-- **The mapper process in a run in which no call fails.** -/
def mapperCalm (args : PoolArgs) (user : Sys → User) (files : List InputFile) (w : Bytes)
    (hfit : args.Fits sizeofFileLine) (hw : FileWires files w) :
    CalmCode (mapperCode args) user (FailsAsItMay user) w where
  ctl := mapperCtlCalm user files
  wk := mapperWkCalm user
  main := mapperMain_calm hfit hw
  ctlBody ph v h := by
    cases ph with
    | receive r => exact mapperReceive_calm h
    | work => exact h.2.elim
  first := by
    obtain ⟨c, k, hk, -⟩ := mapperWorker_wk args
    exact ⟨c, k, hk⟩
  worker i := mapperWorker_calm
  wkBody i ph v h := by
    cases ph with
    | receive r => exact absurd rfl (h.2.2 r)
    | work => exact mapperWork_calm h

end

/-! ## The output -/

section

variable {args : PoolArgs} {user : Sys → User} {files : List InputFile} {w : Bytes} {s : Hosted FileLine MapperPhase}

/-- **The end of such a run.** -/
structure MapperEnd (args : PoolArgs) (user : Sys → User) (files : List InputFile) (s : Hosted FileLine MapperPhase)
    (g : State FileLine) (log : List (Tid × Msg)) : Prop where
  pooled : Pooled (mapperContract args) s.threads g
  concluded : Concluded (args.spec true) g
  came : cameOf s.threads.mem.user.events = allLines files
  failed : ∀ l ∈ failedOf s.threads.mem.user.events, (user (.mapper l)).result = -1
  by_thread : ∀ t, pairsOf t log = emittedBy user (eventsBy t s.threads.mem.user.events)
  out : s.threads.mem.stdout.out = (log.map Prod.snd).flatMap Msg.wire
  sent : s.threads.mem.stdout.sent = log.length
  /-- Only a worker emits. -/
  workers : ∀ t, emittedBy user (eventsBy t s.threads.mem.user.events) ≠ [] → ∃ i < args.threads, t = .worker i

theorem mapper_end (hfit : args.Fits sizeofFileLine) (hw : FileWires files w)
    (h : Reach (mapperSystem args w) (Calm (mapperCode args) user) s) {c : Int}
    (hd : s.threads.loc .controller = .done c) : c = exitSuccess ∧ ∃ g log, MapperEnd args user files s g log := by
  let K := mapperCalm args user files w hfit hw
  obtain ⟨τ, log, hacc⟩ := K.accounted h
  obtain ⟨v, -, -, hv, -, hctl⟩ := K.ctl_done hacc hd
  obtain ⟨hempty, rfl, hcame⟩ : mapperCtlCalm user files (.error c) v := hctl
  obtain ⟨fs, g, hs, hfs, hp⟩ := pooled_of_ok (mapperContract args) (h.mono fun s a hc => hc.ok)
  have hret : Returned (args.spec true) g.ctl := by
    have hat := hp.ctl
    rw [hd] at hat
    exact hat.2 rfl
  have hover : Over s.threads := hp.over hret hd
  have hnone := K.no_worker hacc hover (f := Event.coming) fun c v hv => hv.2.1
  have h1 : ∀ c v, v.astray = false → K.ctl (.error c) v → emittedBy user v.events = [] := fun c v _ hv => hv.1
  have h2 : ∀ c v, v.astray = false → K.wk (.error c) v → v.emits = emittedBy user v.events := fun c v _ hv => hv.1
  obtain ⟨hout, hsent⟩ := hacc.out hover.quiet
  refine ⟨rfl, g, log, hp, hp.concluded hs hfs hret, ?_, ?_, K.output_by hacc hover h1 h2, ?_, hsent, ?_⟩
  · rw [cameOf_eq, flatMap_eventsBy hnone, ← hv, hcame]
  · intro l hl
    obtain ⟨t, ht⟩ := mem_failedOf hl
    exact K.noted hacc ht l rfl
  · rw [hout, wires, List.flatMap_map]
  · intro t ht
    cases t with
    | controller => exact absurd (hv ▸ hempty) ht
    | worker i =>
      refine ⟨i, ?_, rfl⟩
      by_contra hi
      refine ht ?_
      rw [hacc.eventsBy_absent (hp.absent i (by rw [hret.created]; exact Nat.le_of_not_lt hi))]
      rfl

/-- The calls of the user's mapper are those for the lines. -/
theorem MapperEnd.calls {g : State FileLine} {log : List (Tid × Msg)} (h : MapperEnd args user files s g log) :
    callsOf s.threads.mem.user.events = (calledOf s.threads.mem.user.events).map .mapper :=
  callsOf_of_jobs h.pooled.good.synced.jobs

/-- What was put out. -/
theorem MapperEnd.perm {g : State FileLine} {log : List (Tid × Msg)} (h : MapperEnd args user files s g log) :
    (log.map Prod.snd).Perm ((calledOf s.threads.mem.user.events).flatMap fun l => (user (.mapper l)).emits) := by
  have hp := perm_emitted h.by_thread
  rwa [h.calls, List.flatMap_map] at hp

/-- If lines are left, the user's mapper has failed for as many lines as there are workers. -/
theorem MapperEnd.failures {g : State FileLine} {log : List (Tid × Msg)} (h : MapperEnd args user files s g log)
    (hne : g.stack ≠ []) :
    args.threads ≤ (calledOf s.threads.mem.user.events).countP fun l => (user (.mapper l)).result = -1 := by
  obtain ⟨-, hlen⟩ := h.concluded.left hne
  rw [h.pooled.good.synced.failed] at hlen
  have hle := Multiset.countP_le_of_le (fun l => (user (.mapper l)).result = -1) h.pooled.failed_le
  rw [Multiset.coe_countP, Multiset.coe_countP, List.countP_eq_length.mpr (by simpa using h.failed), hlen] at hle
  exact hle

/-- Every line was taken, or is left in the queue. -/
theorem MapperEnd.lines {g : State FileLine} {log : List (Tid × Msg)} (h : MapperEnd args user files s g log) :
    (calledOf s.threads.mem.user.events ++ g.stack).Perm (allLines files) := by
  rw [← h.came]
  exact h.pooled.remains h.concluded

/-- No line is left if the user's mapper fails for fewer lines than there are workers. -/
theorem MapperEnd.none_left {g : State FileLine} {log : List (Tid × Msg)} (h : MapperEnd args user files s g log)
    (hu : (allLines files).countP (fun l => (user (.mapper l)).result = -1) < args.threads) : g.stack = [] := by
  by_contra hne
  have hle := (h.failures hne).trans (List.sublist_append_left _ g.stack).countP_le
  rw [h.lines.countP_eq] at hle
  exact absurd hu (Nat.not_lt.mpr hle)

/-- **What the mapper process puts out.** -/
theorem mapper_output (args : PoolArgs) (user : Sys → User) (files : List InputFile) {w : Bytes}
    (hfit : args.Fits sizeofFileLine) (hw : FileWires files w) {s : Hosted FileLine MapperPhase}
    (h : Reach (mapperSystem args w) (Calm (mapperCode args) user) s) {c : Int}
    (hd : s.threads.loc .controller = .done c) :
    c = exitSuccess ∧ ∃ called left : List FileLine, (called ++ left).Perm (allLines files) ∧
      callsOf s.threads.mem.user.events = called.map .mapper ∧
      (left ≠ [] → left.length ≤ args.queueSize ∧
        args.threads ≤ called.countP fun l => (user (.mapper l)).result = -1) ∧
      ∃ ms : List Msg, s.threads.mem.stdout.out = ms.flatMap Msg.wire ∧ s.threads.mem.stdout.sent = ms.length ∧
        ms.Perm (called.flatMap fun l => (user (.mapper l)).emits) := by
  obtain ⟨rfl, g, log, hend⟩ := mapper_end hfit hw h hd
  refine ⟨rfl, _, g.stack, hend.lines, hend.calls, fun hne => ⟨?_, hend.failures hne⟩, _, hend.out, ?_, hend.perm⟩
  · exact hend.pooled.good.inv.stack_le
  · rw [hend.sent, List.length_map]

/-- The same, if the user's mapper does not fail for as many lines as there are workers: no line is left. -/
theorem mapper_output_all (args : PoolArgs) (user : Sys → User) (files : List InputFile) {w : Bytes}
    (hfit : args.Fits sizeofFileLine) (hw : FileWires files w)
    (hu : (allLines files).countP (fun l => (user (.mapper l)).result = -1) < args.threads)
    {s : Hosted FileLine MapperPhase} (h : Reach (mapperSystem args w) (Calm (mapperCode args) user) s) {c : Int}
    (hd : s.threads.loc .controller = .done c) :
    ∃ ms : List Msg, s.threads.mem.stdout.out = ms.flatMap Msg.wire ∧ s.threads.mem.stdout.sent = ms.length ∧
      ms.Perm ((allLines files).flatMap fun l => (user (.mapper l)).emits) := by
  obtain ⟨-, g, log, hend⟩ := mapper_end hfit hw h hd
  have hlines := hend.lines
  rw [hend.none_left hu, List.append_nil] at hlines
  exact ⟨_, hend.out, by rw [hend.sent, List.length_map], hend.perm.trans (hlines.flatMap_right _)⟩

/-- **With one worker and a queue for one line**, the pairs are put out in the order of the lines. -/
theorem mapper_output_ordered (args : PoolArgs) (user : Sys → User) (files : List InputFile) {w : Bytes}
    (hfit : args.Fits sizeofFileLine) (hone : args.threads = 1 ∧ args.queueSize = 1) (hw : FileWires files w)
    (hu : ∀ l, (user (.mapper l)).result ≠ -1) {s : Hosted FileLine MapperPhase}
    (h : Reach (mapperSystem args w) (Calm (mapperCode args) user) s) {c : Int}
    (hd : s.threads.loc .controller = .done c) :
    callsOf s.threads.mem.user.events = (allLines files).map .mapper ∧
      s.threads.mem.stdout.out = ((allLines files).flatMap fun l => (user (.mapper l)).emits).flatMap Msg.wire := by
  obtain ⟨rfl, g, log, hend⟩ := mapper_end hfit hw h hd
  have hnil : g.stack = [] := by
    refine hend.none_left ?_
    rw [List.countP_eq_zero.mpr fun l _ => by simpa using hu l]
    exact args.threads_pos
  have hcalled := hend.pooled.served_in_order hend.concluded hnil hone.1 hone.2
  rw [hend.came] at hcalled
  have hlog := eq_emitted (u := .worker 0) hend.by_thread fun t ht => by
    by_contra hne
    obtain ⟨i, hi, rfl⟩ := hend.workers t hne
    exact ht (by congr; omega)
  rw [hend.calls, hcalled, List.flatMap_map] at hlog
  exact ⟨by rw [hend.calls, hcalled], by rw [hend.out, hlog]⟩

end

/-! ## A run -/

/-- A user's mapper that emits every line as a value of `a`, and returns `code` of it. -/
def emitsLine (code : Bytes → Int) : Sys → User
  | .mapper line => .emit ⟨.a, .ofBytes line.line⟩ fun _ => .ret (code line.line)
  | _ => .ret 0

/-- It fails for the line `x`. -/
def refusesX (line : Bytes) : Int := if line = [120] then -1 else 0

theorem lineWires_of (ls : List Bytes) : LineWires ls
    (ls.flatMap (fun l => 0 :: List.replicate 7 0 ++ sizeBytes l.length ++ l) ++ (1 :: List.replicate 7 0 ++ sizeBytes 0)) := by
  induction ls with
  | nil => exact .eof _ List.length_replicate
  | cons l ls ih =>
    rw [List.flatMap_cons, List.append_assoc]
    exact .line _ List.length_replicate ih

theorem fileWires_of {f : InputFile} (hf : f.path = .a) : FileWires [f] (wireOf (linesOf f.contents)) := by
  have hw : FileWires [f] _ := .cons (.mk (lineWires_of (linesOf f.contents))) .nil
  rw [hf, List.append_nil, ← List.append_assoc] at hw
  exact hw

theorem fits_oneWorker : oneWorker.Fits sizeofFileLine := ⟨by decide, by decide⟩

theorem fits_twoThreads : twoThreads.Fits sizeofFileLine := ⟨by decide, by decide⟩

theorem fileXYZ_size : ([120, 10, 121, 10, 122] : Bytes).length ≤ ptrdiffMax := by decide

theorem fileXYZ_fits : ∀ l ∈ linesOf [120, 10, 121, 10, 122], l.length < ptrdiffMax := by decide

/-- A file of three lines. -/
def fileXYZ : InputFile := ⟨.a, [120, 10, 121, 10, 122], fileXYZ_size, fileXYZ_fits⟩

theorem fileWires_xyz : FileWires [fileXYZ] (wireOf [[120], [121], [122]]) := fileWires_of rfl

/-- The pair for the line `l`. -/
def pairOf (l : Bytes) : Msg := ⟨.a, .ofBytes l⟩

/-- Worker 0 takes `x`, and emits after worker 1 has emitted for `y`; it fails, and worker 1 goes on with `z`. -/
theorem mapper_output_twoWorkers : ∃ (s : Hosted FileLine MapperPhase) (called left : List FileLine) (ms : List Msg),
    Reach (mapperSystem twoThreads (wireOf [[120], [121], [122]])) (Calm (mapperCode twoThreads) (emitsLine refusesX)) s ∧
      (called ++ left).Perm (allLines [fileXYZ]) ∧ s.threads.mem.stdout.out = ms.flatMap Msg.wire ∧
        s.threads.mem.stdout.out = [pairOf [121], pairOf [120], pairOf [122]].flatMap Msg.wire ∧
        ms.Perm (called.flatMap fun l => (emitsLine refusesX (.mapper l)).emits) := by
  obtain ⟨s, hr, ⟨hc, -, -⟩, hout⟩ : ∃ s,
      Reach (mapperSystem twoThreads (wireOf [[120], [121], [122]])) (Calm (mapperCode twoThreads) (emitsLine refusesX)) s ∧
        endsWith twoThreads 3 3 s ∧
          s.threads.mem.stdout.out = [pairOf [121], pairOf [120], pairOf [122]].flatMap Msg.wire := by
    apply reach_calm _ (turns .controller 35 ++ turns (.worker 0) 8 ++ [.wake (.worker 0) .controller] ++
      turns (.worker 0) 1 ++ turns .controller 10 ++ turns (.worker 1) 8 ++ [.wake (.worker 1) .controller] ++
      turns (.worker 1) 9 ++ turns (.worker 0) 13 ++ turns .controller 1 ++ [.wake .controller (.worker 1)] ++
      turns .controller 16 ++ turns (.worker 1) 18 ++ turns .controller 8)
    decide +kernel
  obtain ⟨-, called, left, hp, -, -, ms, ho, -, hms⟩ := mapper_output twoThreads (emitsLine refusesX) [fileXYZ]
    fits_twoThreads fileWires_xyz hr (loc_of_done (Call.code?_eq.mp hc))
  exact ⟨s, called, left, ms, hr, hp, ho, hout, hms⟩

/-- One worker maps three lines. -/
theorem mapper_output_ordered_xyz : ∃ s : Hosted FileLine MapperPhase,
    Reach (mapperSystem oneWorker (wireOf [[120], [121], [122]])) (Calm (mapperCode oneWorker) (emitsLine fun _ => 0)) s ∧
      callsOf s.threads.mem.user.events = (allLines [fileXYZ]).map .mapper ∧
      s.threads.mem.stdout.out = [pairOf [120], pairOf [121], pairOf [122]].flatMap Msg.wire := by
  obtain ⟨s, hr, hc, -⟩ : ∃ s, Reach (mapperSystem oneWorker (wireOf [[120], [121], [122]]))
      (Calm (mapperCode oneWorker) (emitsLine fun _ => 0)) s ∧ endsWith oneWorker 3 3 s := by
    apply reach_calm _ (turns .controller 34 ++ turns (.worker 0) 8 ++ [.wake (.worker 0) .controller] ++
      turns (.worker 0) 9 ++ turns .controller 1 ++ [.wake .controller (.worker 0)] ++ turns .controller 8 ++
      turns (.worker 0) 1 ++ [.wake (.worker 0) .controller] ++ turns (.worker 0) 9 ++ turns .controller 1 ++
      [.wake .controller (.worker 0)] ++ turns .controller 8 ++ turns (.worker 0) 18 ++ turns .controller 8)
    decide +kernel
  obtain ⟨hcalls, hout⟩ := mapper_output_ordered oneWorker (emitsLine fun _ => 0) [fileXYZ] fits_oneWorker ⟨rfl, rfl⟩
    fileWires_xyz (fun l h => by cases h) hr (loc_of_done (Call.code?_eq.mp hc))
  exact ⟨s, hr, hcalls, hout⟩

end MrLib
