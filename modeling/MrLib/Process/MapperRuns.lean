import MrLib.Process.Ended
import MrLib.Process.MapperPool

/-!
# Runs of the mapper process

`no_lost_line`: what the mapper process has received when it returns `EXIT_SUCCESS`, if no push fails, no pop fails after
it has taken a line, and the workers do not all end with lines left in the queue. None of the three makes the process
return a failure (`line_lost`): the `break` after a failing push does not leave the loop, and the code of a worker is only
logged.

`never_wedged`: when a worker ends because the user's mapper has failed, the controller goes on pushing; it can wait for
ever when as many workers have ended as there are and the queue is full (`controller_wedged`).
-/

namespace MrLib

open Conc Conc.WorkPool

/-! ## Lost lines -/

/-- Nothing happens in this step by which a line is lost. -/
def KeepsLines (args : PoolArgs) (s : Hosted FileLine MapperPhase) (a : Act Tid Val) : Prop :=
  ¬ PushFails s.threads a ∧ ¬ PopSlips s.threads a ∧ ¬ Abandoned args.threads s.threads

/-- The end of such a run: the threads have ended, and the user's mapper was called once for every line. -/
theorem mapper_served {args : PoolArgs} {stdin : Bytes} {s : Hosted FileLine MapperPhase}
    (h : Reach (mapperSystem args stdin) (KeepsLines args) s) (hd : s.threads.loc .controller = .done exitSuccess) :
    Over s.threads ∧ (callsOf s.threads.mem.user.events).Perm ((cameOf s.threads.mem.user.events).map .mapper) := by
  have hfault : ∀ s a f, KeepsLines args s a → Blame s.threads a f → f ≠ .refused ∧ f ≠ .burnt ∧ f ≠ .lost := by
    intro s a f hc hb
    refine ⟨fun e => ?_, fun e => ?_, fun e => ?_⟩
    · exact hc.1 (hb.pushFails (.inl e))
    · exact hc.1 (hb.pushFails (.inr e))
    · exact hc.2.1 (e ▸ hb).popSlips
  obtain ⟨fs, g, hs, hfs, hp⟩ := pooled_of_reach (mapperContract args) (by decide) hfault h
  have hcauses := hs.causes
  have hret : Returned (args.spec true) g.ctl := by
    have hat := hp.ctl
    rw [hd] at hat
    exact hat.2 rfl
  have hrefused : g.ctl.refused = false := by
    by_contra hne
    rcases hcauses.refused (by simpa using hne) with h0 | h0 | h0
    · cases h0
    · exact (hfs _ h0).1 rfl
    · exact (hfs _ h0).2.1 rfl
  have hlost : g.lost = [] := by
    by_contra hne
    rcases hcauses.lost hne with h0 | h0
    · exact h0 rfl
    · exact (hfs _ h0).2.2 rfl
  have hcount := count_of_done (K := mapperContract args) (fun v hv => hv rfl) (fun s a hc => hc.2.2) h hd
  exact ⟨hp.over hret hd, hp.served hret hrefused hlost hcount⟩

/-- **No line is lost**: the user's mapper was called once for every line. -/
theorem no_lost_line (args : PoolArgs) (stdin : Bytes) {s : Hosted FileLine MapperPhase}
    (h : Reach (mapperSystem args stdin) (KeepsLines args) s) (hd : s.threads.loc .controller = .done exitSuccess) :
    (callsOf s.threads.mem.user.events).Perm ((cameOf s.threads.mem.user.events).map .mapper) := (mapper_served h hd).2

/-- **How lines come to be abandoned**: unless a worker's pop or log has failed, the user's mapper has failed once for every
worker. -/
theorem abandoned_lines {args : PoolArgs} {stdin : Bytes} {s : Hosted FileLine MapperPhase}
    (h : Reach (mapperSystem args stdin) (fun s a => ¬ Stumbles s.threads a) s) (ha : Abandoned args.threads s.threads) :
    (failedOf s.threads.mem.user.events).length = args.threads := (abandoned_failed (mapperContract args) h ha).2

/-- So a run keeps its lines as long as no push, pop or log fails and the user's mapper has failed for fewer lines than there
are workers. -/
theorem keepsLines_of_few {args : PoolArgs} {stdin : Bytes} {s : Hosted FileLine MapperPhase}
    (h : Reach (mapperSystem args stdin) (fun s a => ¬ PushFails s.threads a ∧ ¬ Stumbles s.threads a ∧
      (failedOf s.threads.mem.user.events).length < args.threads) s) :
    Reach (mapperSystem args stdin) (KeepsLines args) s := by
  refine (h.assume (J := fun s => Abandoned args.threads s.threads →
    (failedOf s.threads.mem.user.events).length = args.threads) fun s hr => ?_).mono ?_
  · exact abandoned_lines (hr.mono fun _ _ hc => hc.2.1)
  · rintro s a ⟨⟨hpush, hstumble, hfew⟩, habandoned⟩
    refine ⟨hpush, fun hpop => hstumble hpop.stumbles, fun ha => ?_⟩
    have := habandoned ha
    omega

/-! ## A controller that waits for ever -/

/-- The controller is blocked in `mr_queue_push`, the queue is full, and every worker has ended. -/
def Wedged (args : PoolArgs) (s : Hosted FileLine MapperPhase) : Prop :=
  (∃ y f, s.threads.loc .controller = .queue (.pushWait y) f) ∧ s.threads.mem.queue.count = args.queueSize ∧
    ∀ i < args.threads, ∃ c, s.threads.loc (.worker i) = .done c

/-- **The controller does not wait for ever** if few lines are received, or the user's mapper fails for few of them. -/
theorem never_wedged (args : PoolArgs) (stdin : Bytes) (bad : FileLine → Bool) {s : Hosted FileLine MapperPhase}
    (h : Reach (mapperSystem args stdin) (fun _ a => a.ok = true) s)
    (hbad : ∀ line ∈ failedOf s.threads.mem.user.events, bad line = true)
    (hfew : (cameOf s.threads.mem.user.events).length ≤ args.threads + args.queueSize ∨
      (cameOf s.threads.mem.user.events).dropLast.dropLast.countP bad < args.threads) : ¬ Wedged args s := by
  rintro ⟨⟨y, f, hl⟩, hfull, hdone⟩
  obtain ⟨fs, g, hs, hfs, hp⟩ := pooled_of_ok (mapperContract args) h
  have hcauses := hs.causes
  have none_of : ∀ {f : Fault}, f ∈ fs → f ≠ .none → False := fun hm hne => hne (hfs _ hm)
  have hat := hp.ctl
  rw [hl] at hat
  obtain ⟨x, rfl, hc, ho, hpoised⟩ := hat
  obtain ⟨-, -, -, rest, hh, -⟩ := (hc ▸ hpoised.1 : ∃ r v', ctlEnv _ _ (.push x) r v').choose_spec.choose_spec
  have hrefused : g.ctl.refused = false := by
    by_contra hne
    rcases hcauses.refused (by simpa using hne) with h0 | h0 | h0
    · cases h0
    · exact none_of h0 nofun
    · exact none_of h0 nofun
  have hbroken : ∀ i, g.wk i ≠ .broken := by
    intro i hi
    rcases hcauses.broken i hi with h0 | h0 | h0
    · cases h0
    · exact none_of h0 nofun
    · exact none_of h0 nofun
  have hout : ∀ i < args.threads, (g.wk i).out = true := by
    intro i hi
    obtain ⟨c, hci⟩ := hdone i hi
    have hwi := hp.wk i
    rw [hci] at hwi
    exact hwi
  obtain ⟨hlen, hcount⟩ := wedged_born hp.good.inv hp.good.ledger hp.good.faults rfl args.queueSize_pos ho hh hrefused
    (hp.queue.count.symm.trans hfull) hout hbroken
  have hmany := hcount bad (by rw [hp.good.synced.failed]; exact hbad)
  rw [hp.good.synced.born] at hlen hmany
  rcases hfew with hfew | hfew
  · exact absurd hlen (by simp only [PoolArgs.spec]; omega)
  · exact absurd hmany (by simp only [PoolArgs.spec]; omega)

/-! ## Concrete runs -/

/-- A file `a` with the lines `ls`, on the wire. -/
def wireOf (ls : List Bytes) : Bytes :=
  sizeBytes 1 ++ [97] ++ ls.flatMap (fun l => 0 :: List.replicate 7 0 ++ sizeBytes l.length ++ l) ++
    (1 :: List.replicate 7 0 ++ sizeBytes 0)

/-- A user's mapper that fails on the line `x`. -/
def failsOnX : Sys → User
  | .mapper line => .ret (if line.line = [120] then -1 else 0)
  | _ => .ret 0

/-- The controller has ended with code 0, and the mapper was called for `n` of `m` lines. -/
def endsWith (args : PoolArgs) (n m : Nat) (s : Hosted FileLine MapperPhase) : Prop :=
  ((runtime (mapperCode args).client).call (s.threads.loc .controller)).code? = some 0 ∧
    (callsOf s.threads.mem.user.events).length = n ∧ (cameOf s.threads.mem.user.events).length = m

instance (args : PoolArgs) (n m : Nat) : DecidablePred (endsWith args n m) := fun _ => inferInstanceAs (Decidable (_ ∧ _))

/-- Worker 0 has ended with a failure, and worker 1 without one. -/
def oneWorkerFailed (s : Hosted FileLine MapperPhase) : Prop :=
  ((runtime (mapperCode twoThreads).client).call (s.threads.loc (.worker 0))).code? = some exitFailure ∧
    ((runtime (mapperCode twoThreads).client).call (s.threads.loc (.worker 1))).code? = some exitSuccess

instance : DecidablePred oneWorkerFailed := fun _ => inferInstanceAs (Decidable (_ ∧ _))

/-- The user's mapper fails on the first of three lines, which ends worker 0; worker 1 goes on with the others. -/
theorem no_lost_line_twoWorkers : ∃ s,
    Reach (mapperSystem twoThreads (wireOf [[120], [121], [122]])) (KeepsLines twoThreads) s ∧
      s.threads.loc (.worker 0) = .done exitFailure ∧ s.threads.loc (.worker 1) = .done exitSuccess ∧
      (cameOf s.threads.mem.user.events).length = 3 ∧
      (callsOf s.threads.mem.user.events).Perm ((cameOf s.threads.mem.user.events).map .mapper) := by
  obtain ⟨s, hr, ⟨hc, -, hm⟩, h0, h1⟩ := reach_of_playP
    (T := mapperSystem twoThreads (wireOf [[120], [121], [122]])) (P := (mapperCode twoThreads).keeps 2)
    ((mapperCode twoThreads).turn failsOnX) (fun s => endsWith twoThreads 3 3 s ∧ oneWorkerFailed s)
    (turns .controller 35 ++ turns (.worker 0) 8 ++ [.wake (.worker 0) .controller] ++ turns (.worker 0) 9 ++
      turns (.worker 1) 9 ++ turns .controller 1 ++ [.wake .controller (.worker 1)] ++ turns .controller 8 ++
      turns (.worker 1) 1 ++ [.wake (.worker 1) .controller] ++ turns (.worker 1) 4 ++ turns .controller 1 ++
      [.wake .controller (.worker 1)] ++ turns .controller 16 ++ turns (.worker 1) 13 ++ turns .controller 8)
    (by decide +kernel)
  have hk := hr.mono fun _ _ => ProcessCode.not_lost_of_keeps
  exact ⟨s, hk, loc_of_done (Call.code?_eq.mp h0), loc_of_done (Call.code?_eq.mp h1), hm,
    no_lost_line twoThreads _ hk (loc_of_done (Call.code?_eq.mp hc))⟩

/-- **A line is lost**: the user's mapper fails on the first line, and there is no worker for the second. -/
theorem line_lost : ∃ s, Reach (mapperSystem oneWorker (wireOf [[120], [121]])) (fun _ _ => True) s ∧
    s.threads.loc .controller = .done exitSuccess ∧
      ¬ (callsOf s.threads.mem.user.events).Perm ((cameOf s.threads.mem.user.events).map .mapper) := by
  obtain ⟨s, hr, hc, hn, hm⟩ := reach_of_playP (T := mapperSystem oneWorker (wireOf [[120], [121]]))
    (P := fun _ _ => true) ((mapperCode oneWorker).turn failsOnX) (endsWith oneWorker 1 2)
    (turns .controller 15 ++ turns (.worker 0) 7 ++ turns .controller 12 ++ turns (.worker 0) 11 ++
      turns .controller 16 ++ turns .controller 14) (by decide +kernel)
  refine ⟨s, hr.mono fun _ _ _ => trivial, loc_of_done (Call.code?_eq.mp hc), fun hp => ?_⟩
  have := hp.length_eq
  rw [List.length_map, hn, hm] at this
  cases this

/-- The controller is in `cnd_wait`, the queue is full, and the worker has ended. -/
def waitsForever (s : Hosted FileLine MapperPhase) : Bool :=
  (match s.threads.loc .controller with
    | .queue (.pushWait _) _ => true
    | _ => false) && s.threads.mem.queue.count == 1 &&
    ((runtime (mapperCode oneWorker).client).call (s.threads.loc (.worker 0))).code?.isSome

theorem wedged_of {s : Hosted FileLine MapperPhase} (h : waitsForever s = true) : Wedged oneWorker s := by
  simp only [waitsForever, Bool.and_eq_true, beq_iff_eq] at h
  obtain ⟨⟨hl, hcount⟩, hend⟩ := h
  refine ⟨?_, hcount, ?_⟩
  · split at hl
    · rename_i y f hl'
      exact ⟨y, f, hl'⟩
    · cases hl
  · intro i hi
    obtain rfl : i = 0 := Nat.lt_one_iff.mp hi
    obtain ⟨c, hc⟩ := Option.isSome_iff_exists.mp hend
    exact ⟨c, loc_of_done (Call.code?_eq.mp hc)⟩

/-- **The controller waits for ever**: the user's mapper fails on the first of three lines. -/
theorem controller_wedged : ∃ s, Reach (mapperSystem oneWorker (wireOf [[120], [121], [122]])) (fun _ a => a.ok = true) s ∧
    Wedged oneWorker s := by
  obtain ⟨s, hr, hw⟩ := reach_of_playP (T := mapperSystem oneWorker (wireOf [[120], [121], [122]])) (P := fun _ a => a.ok)
    ((mapperCode oneWorker).turn failsOnX) (fun s => waitsForever s = true)
    (turns .controller 15 ++ turns (.worker 0) 7 ++ turns .controller 12 ++ turns (.worker 0) 11 ++
      turns .controller 15) (by decide +kernel)
  exact ⟨s, hr, wedged_of hw⟩

/-- With two lines it does not. -/
theorem never_wedged_twoLines : ∃ s, Reach (mapperSystem oneWorker (wireOf [[120], [121]])) (fun _ a => a.ok = true) s ∧
    (cameOf s.threads.mem.user.events).length = 2 ∧ ¬ Wedged oneWorker s := by
  obtain ⟨s, hr, -, -, hm⟩ := reach_of_playP (T := mapperSystem oneWorker (wireOf [[120], [121]])) (P := fun _ a => a.ok)
    ((mapperCode oneWorker).turn failsOnX) (endsWith oneWorker 1 2)
    (turns .controller 15 ++ turns (.worker 0) 7 ++ turns .controller 12 ++ turns (.worker 0) 11 ++
      turns .controller 30) (by decide +kernel)
  exact ⟨s, hr, hm, never_wedged oneWorker _ (fun _ => true) hr (fun _ _ => rfl) (.inl (by rw [hm]; decide))⟩

end MrLib
