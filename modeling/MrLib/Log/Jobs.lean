import MrLib.Core.Code
import MrLib.Log.Exclusion

/-!
# Jobs that share the name of the log semaphore

Jobs `J`, each with threads `K` that log, run `mr_log_init`, then `mr_log` any number of times and from any of their
threads, then `mr_log_destroy`, each at its own pace (`jobSystem`). `sem_open` with `O_CREAT` opens the object the name
is bound to, or binds it to a new one of value 1; `sem_unlink` takes the name away, and fails when there is none; who has
an object open keeps it.

The name has no count of its users, so a job that destroys its log takes the name away from the others
(`jobs_not_independent`). As long as a job unlinks the name only when no other job is between its `mr_log_init` and the
end of its `mr_log_destroy`, all is well in every state reached (`independent_jobs`).
-/

namespace MrLib

open Conc

/-- What is left to do of a call. -/
abbrev LogProg := IoProg (Except Leave Int)

inductive JobPhase
  | idle
  /-- In `mr_log_init`. -/
  | init (p : LogProg)
  /-- `mr_log_init` has returned 0. -/
  | running
  /-- `mr_log_init` has returned `-1`. -/
  | refused
  /-- In `mr_log_destroy`. -/
  | destroy (p : LogProg)
  /-- `mr_log_destroy` has returned `r`. -/
  | ended (r : Int)

/-- The result of `mr_log_destroy`. -/
def JobPhase.result? : JobPhase → Option Int
  | .ended r => some r
  | _ => none

/-- Between `mr_log_init` and the end of `mr_log_destroy`. -/
def JobPhase.inUse : JobPhase → Bool
  | .running | .destroy _ => true
  | _ => false

/-- `mr_log_init`, when its last call has returned. -/
def JobPhase.afterInit : LogProg → JobPhase
  | .ret (.ok 0) => .running
  | .ret _ => .refused
  | p => .init p

/-- `mr_log_destroy`, when its last call has returned. -/
def JobPhase.afterDestroy : LogProg → JobPhase
  | .ret (.ok r) => .ended r
  | p => .destroy p

structure Jobs (J K : Type) where
  phase : J → JobPhase
  /-- `log->sem` -/
  handle : J → Option Nat
  /-- The threads of a job that are in `mr_log`. -/
  active : J → Finset K
  /-- The object that `MR_LOG_SEM_NAME` is bound to. -/
  name : Option Nat
  /-- The number of objects created so far. -/
  fresh : Nat
  /-- The objects, with their callers. -/
  logs : Nat → LogState (J × K)

inductive JobAct (J K : Type)
  /-- `j` calls `mr_log_init`. -/
  | init (j : J) (logFile : Bytes)
  /-- The call that `j` makes in `mr_log_init` or `mr_log_destroy` returns. -/
  | ret (j : J) (ok : Bool)
  /-- A thread of `j` begins `mr_log`, or goes on in it. -/
  | log (j : J) (a : LogAct K)
  /-- `j` calls `mr_log_destroy`; its threads have left `mr_log`. -/
  | destroy (j : J)

section

variable {J K : Type} [DecidableEq J] [DecidableEq K]

def Jobs.setPhase (s : Jobs J K) (j : J) (ph : JobPhase) : Jobs J K :=
  { s with phase := Function.update s.phase j ph }

def Jobs.setHandle (s : Jobs J K) (j : J) (o : Option Nat) : Jobs J K :=
  { s with handle := Function.update s.handle j o }

/-- `sem_open` with `O_CREAT` succeeds. -/
def Jobs.openName (s : Jobs J K) (j : J) : Jobs J K :=
  match s.name with
  | some o => s.setHandle j (some o)
  | none =>
    { s.setHandle j (some s.fresh) with
      name := some s.fresh
      fresh := s.fresh + 1
      logs := Function.update s.logs s.fresh .init }

/-- A call of `j` succeeds or fails: `sem_unlink` fails if the name is not there, and only then. -/
def Jobs.perform (s : Jobs J K) (j : J) (e : Sys) (ok : Bool) : Option (Jobs J K) :=
  match e with
  | .semOpen => if ok then some (s.openName j) else some s
  | .semClose => if ok then some (s.setHandle j none) else some s
  | .semUnlink => if s.name.isSome = ok then some { s with name := none } else none
  | .fopen _ _ | .fclose _ => some s
  | _ => none

/-- The call a program is about to make. -/
def LogProg.call? : LogProg → Option Sys
  | .call (.sys e) _ => some e
  | _ => none

/-- A call of `p` returns. -/
def Jobs.advance (s : Jobs J K) (j : J) (ok : Bool) : LogProg → Option (Jobs J K × LogProg)
  | .call (.sys e) k => (s.perform j e ok).map fun s' => (s', k (.sys (if ok then .ok else .fail)))
  | _ => none

def LogAct.of (j : J) : LogAct K → LogAct (J × K)
  | .call k => .call (j, k)
  | .ret k ok => .ret (j, k) ok

def Jobs.setLog (s : Jobs J K) (o : Nat) (j : J) (k : K) (l : LogState (J × K)) : Jobs J K :=
  { s with
    logs := Function.update s.logs o l
    active := Function.update s.active j
      (if (l.loc (j, k)).isSome then insert k (s.active j) else (s.active j).erase k) }

def Jobs.step (s : Jobs J K) : JobAct J K → Option (Jobs J K)
  | .init j logFile =>
    match s.phase j with
    | .idle => some (s.setPhase j (.afterInit (mrLogInit logFile).call.run))
    | _ => none
  | .ret j ok =>
    match s.phase j with
    | .init p => (s.advance j ok p).map fun x => x.1.setPhase j (.afterInit x.2)
    | .destroy p => (s.advance j ok p).map fun x => x.1.setPhase j (.afterDestroy x.2)
    | _ => none
  | .log j a =>
    match s.phase j, s.handle j with
    | .running, some o => ((s.logs o).step (a.of j)).map (s.setLog o j a.who)
    | _, _ => none
  | .destroy j =>
    match s.phase j with
    | .running => if s.active j = ∅ then some (s.setPhase j (.afterDestroy mrLogDestroy.call.run)) else none
    | _ => none

def Jobs.init : Jobs J K := ⟨fun _ => .idle, fun _ => none, fun _ => ∅, none, 0, fun _ => .init⟩

def jobSystem (J K : Type) [DecidableEq J] [DecidableEq K] : Lts (Jobs J K) (JobAct J K) where
  init := .init
  step := Jobs.step

/-- The call of `mr_log_init` or `mr_log_destroy` that `j` makes. -/
def Jobs.call? (s : Jobs J K) (j : J) : Option Sys :=
  match s.phase j with
  | .init p | .destroy p => LogProg.call? p
  | _ => none

/-- Only `sem_unlink`, `sem_wait`, `sem_post` and `time` fail in this step, if anything does. -/
def Jobs.ok (s : Jobs J K) : JobAct J K → Bool
  | .ret j ok =>
    match s.call? j with
    | some .semUnlink => true
    | _ => ok
  | .log j a =>
    match s.handle j with
    | some o => [.fprintf, .vfprintf, .fputc, .fflush].all fun c => (s.logs o).succeeds c (a.of j)
    | none => true
  | _ => true

/-- `j` is about to unlink the name. -/
def Jobs.unlinking (s : Jobs J K) (j : J) : Bool :=
  match s.call? j with
  | some .semUnlink => true
  | _ => false

/-- If this is the step in which `j` unlinks the name, no other job is between its `mr_log_init` and the end of its
`mr_log_destroy`. -/
def Jobs.alone (s : Jobs J K) : JobAct J K → Prop
  | .ret j _ => s.unlinking j = true → ∀ i, i ≠ j → (s.phase i).inUse = false
  | _ => True

end

/-! ## The calls of the two functions -/

/-- When its calls succeed, `p` makes the calls `es` and returns 0. -/
def Makes : List Sys → LogProg → Prop
  | [], p => p = .ret (.ok 0)
  | e :: es, p => ∃ k, p = .call (.sys e) k ∧ Makes es (k (.sys .ok))

theorem makes_mrLogInit (logFile : Bytes) : Makes [.fopen .log logFile, .semOpen] (mrLogInit logFile).call.run :=
  ⟨_, rfl, _, rfl, rfl⟩

theorem makes_mrLogDestroy : Makes [.fclose .log, .semClose, .semUnlink] mrLogDestroy.call.run :=
  ⟨_, rfl, _, rfl, _, rfl, rfl⟩

theorem Makes.afterInit {e : Sys} {es : List Sys} {p : LogProg} (h : Makes (e :: es) p) :
    JobPhase.afterInit p = .init p := by
  obtain ⟨k, rfl, -⟩ := h
  rfl

theorem Makes.afterDestroy {e : Sys} {es : List Sys} {p : LogProg} (h : Makes (e :: es) p) :
    JobPhase.afterDestroy p = .destroy p := by
  obtain ⟨k, rfl, -⟩ := h
  rfl

/-! ## One step -/

/-- What holds of a job in a phase, when its handle is `h` and `n` the object of the name. -/
def PhaseOk (n h : Option Nat) : JobPhase → Prop
  | .init p => (∃ f, Makes [.fopen .log f, .semOpen] p) ∨ Makes [.semOpen] p
  | .running => n.isSome = true ∧ h = n
  | .destroy p => n.isSome = true ∧
    (Makes [.fclose .log, .semClose, .semUnlink] p ∨ Makes [.semClose, .semUnlink] p ∨ Makes [.semUnlink] p)
  | .ended r => r = 0
  | .idle | .refused => True

/-- Who does not use the name does not care what it is bound to. -/
theorem PhaseOk.rename {n n' h : Option Nat} : ∀ {ph : JobPhase}, PhaseOk n h ph → ph.inUse = false → PhaseOk n' h ph
  | .init _, hp, _ | .ended _, hp, _ => hp
  | .idle, _, _ | .refused, _, _ => trivial

theorem PhaseOk.isSome {n h : Option Nat} : ∀ {ph : JobPhase}, PhaseOk n h ph → ph.inUse = true → n.isSome = true
  | .running, hp, _ | .destroy _, hp, _ => hp.1

variable {J K : Type}

structure JobsInv (s : Jobs J K) : Prop where
  phase : ∀ j, PhaseOk s.name (s.handle j) (s.phase j)
  logs : ∀ o, ∃ d, LogInv d (s.logs o)
  callers : ∀ o j k, (s.logs o).loc (j, k) ≠ none → s.phase j = .running ∧ s.handle j = some o ∧ k ∈ s.active j

variable {s s' : Jobs J K} {j : J}

theorem JobsInv.init : JobsInv (Jobs.init : Jobs J K) where
  phase _ := trivial
  logs _ := ⟨0, LogInv.init⟩
  callers _ _ _ hl := absurd rfl hl

/-- A new object has no callers. -/
theorem JobsInv.create (h : JobsInv s) (o m : Nat) :
    JobsInv { s with fresh := m, logs := Function.update s.logs o .init } where
  phase := h.phase
  logs o' := by
    by_cases ho : o' = o
    · subst ho
      exact ⟨0, by simpa using LogInv.init⟩
    · simpa [ho] using h.logs o'
  callers o' i k hl := by
    by_cases ho : o' = o
    · subst ho
      simp [LogState.init] at hl
    · exact h.callers o' i k (by simpa [ho] using hl)

/-- Only a running job has threads in `mr_log`. -/
theorem JobsInv.silent (h : JobsInv s) (hp : s.phase j ≠ .running) (o : Nat) (k : K) : (s.logs o).loc (j, k) = none := by
  by_contra hl
  exact hp (h.callers o j k hl).1

@[simp] theorem who_of (a : LogAct K) : (a.of j).who = (j, a.who) := by cases a <;> rfl

variable [DecidableEq J]

/-- A job none of whose threads is in `mr_log` goes on; it may open or close its semaphore. -/
theorem JobsInv.move (h : JobsInv s) (hj : ∀ o k, (s.logs o).loc (j, k) = none) (o : Option Nat) {φ : JobPhase}
    (hph : PhaseOk s.name o φ) : JobsInv ((s.setHandle j o).setPhase j φ) where
  phase i := by
    by_cases hi : i = j
    · subst hi
      simpa [Jobs.setHandle, Jobs.setPhase] using hph
    · simpa [Jobs.setHandle, Jobs.setPhase, hi] using h.phase i
  logs := h.logs
  callers o' i k hl := by
    have hi : i ≠ j := by
      rintro rfl
      exact hl (hj o' k)
    simpa [Jobs.setHandle, Jobs.setPhase, hi] using h.callers o' i k hl

/-- The same, with the semaphore left alone. -/
theorem JobsInv.advance (h : JobsInv s) (hj : ∀ o k, (s.logs o).loc (j, k) = none) {φ : JobPhase}
    (hph : PhaseOk s.name (s.handle j) φ) : JobsInv (s.setPhase j φ) := by
  have := h.move hj (s.handle j) hph
  rwa [show s.setHandle j (s.handle j) = s by simp [Jobs.setHandle]] at this

/-- The name is bound to another object, or to none, while no other job uses it. -/
theorem JobsInv.rebind (h : JobsInv s) (ha : ∀ i, i ≠ j → (s.phase i).inUse = false)
    (hj : ∀ o k, (s.logs o).loc (j, k) = none) (n : Option Nat) : JobsInv { s.setPhase j .idle with name := n } where
  phase i := by
    by_cases hi : i = j
    · subst hi
      simp [Jobs.setPhase, PhaseOk]
    · simpa [Jobs.setPhase, hi] using (h.phase i).rename (ha i hi)
  logs := h.logs
  callers o' i k hl := by
    have hi : i ≠ j := by
      rintro rfl
      exact hl (hj o' k)
    simpa [Jobs.setPhase, hi] using h.callers o' i k hl

/-- `sem_open` gives `j` the object of the name, or a new one when no job uses the name. -/
theorem JobsInv.open (h : JobsInv s) (hp : s.phase j ≠ .running) : JobsInv ((s.openName j).setPhase j .running) := by
  unfold Jobs.openName
  cases hn : s.name with
  | some o => exact h.move (h.silent hp) (some o) (by simp [PhaseOk, hn])
  | none =>
    have ha : ∀ i, i ≠ j → (s.phase i).inUse = false := by
      intro i _
      by_contra hu
      have := (h.phase i).isSome (by simpa using hu)
      rw [hn] at this
      cases this
    have hr := (h.rebind ha (h.silent hp) (some s.fresh)).create s.fresh (s.fresh + 1)
    have := hr.move (j := j) (φ := .running) (hr.silent (by simp [Jobs.setPhase])) (some s.fresh) (by simp [PhaseOk])
    simpa [Jobs.setPhase, Jobs.setHandle] using this

/-- `sem_unlink` takes the name from no other job. -/
theorem JobsInv.unlink (h : JobsInv s) (hp : s.phase j ≠ .running) (ha : ∀ i, i ≠ j → (s.phase i).inUse = false) :
    JobsInv ({ s with name := none }.setPhase j (.ended 0)) := by
  have hr := h.rebind ha (h.silent hp) none
  have := hr.advance (j := j) (φ := .ended 0) (hr.silent (by simp [Jobs.setPhase])) rfl
  simpa [Jobs.setPhase] using this

/-- A call of a job that is in `mr_log_init`. -/
theorem JobsInv.stepInit (h : JobsInv s) {p : LogProg} {ok : Bool} {x : Jobs J K × LogProg} (hp : s.phase j = .init p)
    (hok : s.ok (.ret j ok) = true) (hx : s.advance j ok p = some x) : JobsInv (x.1.setPhase j (.afterInit x.2)) := by
  have hr : s.phase j ≠ .running := by simp [hp]
  have hph := h.phase j
  rw [hp] at hph
  rcases hph with ⟨f, k, rfl, hk⟩ | ⟨k, rfl, hk⟩
  · obtain rfl : ok = true := by simpa [Jobs.ok, Jobs.call?, hp, LogProg.call?] using hok
    obtain rfl : (s, k (.sys .ok)) = x := by simpa [Jobs.advance, Jobs.perform] using hx
    simp only [hk.afterInit]
    exact h.advance (h.silent hr) (.inr hk)
  · obtain rfl : ok = true := by simpa [Jobs.ok, Jobs.call?, hp, LogProg.call?] using hok
    obtain rfl : (s.openName j, k (.sys .ok)) = x := by simpa [Jobs.advance, Jobs.perform] using hx
    simp only [show k (.sys .ok) = .ret (.ok 0) from hk, JobPhase.afterInit]
    exact h.open hr

/-- A call of a job that is in `mr_log_destroy`. -/
theorem JobsInv.stepDestroy (h : JobsInv s) {p : LogProg} {ok : Bool} {x : Jobs J K × LogProg}
    (hp : s.phase j = .destroy p) (hok : s.ok (.ret j ok) = true) (ha : s.alone (.ret j ok))
    (hx : s.advance j ok p = some x) : JobsInv (x.1.setPhase j (.afterDestroy x.2)) := by
  have hr : s.phase j ≠ .running := by simp [hp]
  have hph := h.phase j
  rw [hp] at hph
  obtain ⟨hn, ⟨k, rfl, hk⟩ | ⟨k, rfl, hk⟩ | ⟨k, rfl, hk⟩⟩ := hph
  · obtain rfl : ok = true := by simpa [Jobs.ok, Jobs.call?, hp, LogProg.call?] using hok
    obtain rfl : (s, k (.sys .ok)) = x := by simpa [Jobs.advance, Jobs.perform] using hx
    simp only [hk.afterDestroy]
    exact h.advance (h.silent hr) ⟨hn, .inr (.inl hk)⟩
  · obtain rfl : ok = true := by simpa [Jobs.ok, Jobs.call?, hp, LogProg.call?] using hok
    obtain rfl : (s.setHandle j none, k (.sys .ok)) = x := by simpa [Jobs.advance, Jobs.perform] using hx
    simp only [hk.afterDestroy]
    exact h.move (h.silent hr) none ⟨hn, .inr (.inr hk)⟩
  · -- the name is there, so `sem_unlink` succeeds
    have hu : ∀ i, i ≠ j → (s.phase i).inUse = false := 
      ha (by simp [Jobs.unlinking, Jobs.call?, hp, LogProg.call?])
    simp only [Jobs.advance, Jobs.perform, hn, Option.map_eq_some_iff, Option.ite_none_right_eq_some,
      Option.some.injEq] at hx
    obtain ⟨s1, ⟨rfl, rfl⟩, rfl⟩ := hx
    simp only [if_true, show k (.sys .ok) = .ret (.ok 0) from hk, JobPhase.afterDestroy]
    exact h.unlink hr hu

variable [DecidableEq K]

/-- A step of a thread of `j` in `mr_log`. -/
theorem JobsInv.stepLog (h : JobsInv s) {a : LogAct K} {o : Nat} {l : LogState (J × K)} (hp : s.phase j = .running)
    (ho : s.handle j = some o) (hok : s.ok (.log j a) = true) (hl : (s.logs o).step (a.of j) = some l) :
    JobsInv (s.setLog o j a.who l) where
  phase := h.phase
  logs o' := by
    by_cases hoo : o' = o
    · subst hoo
      obtain ⟨d, hd⟩ := h.logs o'
      have hf : (s.logs o').succeeds .fflush (a.of j) = true := by
        simp only [Jobs.ok, ho, List.all_cons, Bool.and_eq_true] at hok
        exact hok.2.2.2.1
      obtain ⟨d', hd', -⟩ := hd.step hf hl
      exact ⟨d', by simpa [Jobs.setLog] using hd'⟩
    · simpa [Jobs.setLog, hoo] using h.logs o'
  callers o' i k hk := by
    by_cases hik : o' = o ∧ (i, k) = (j, a.who)
    · obtain ⟨rfl, hik⟩ := hik
      obtain ⟨rfl, rfl⟩ := Prod.mk.inj hik
      simp only [Jobs.setLog, Function.update_self] at hk ⊢
      refine ⟨hp, ho, ?_⟩
      rw [if_pos (Option.isSome_iff_ne_none.mpr hk)]
      exact Finset.mem_insert_self _ _
    · have hold : (s.logs o').loc (i, k) ≠ none := by
        by_cases hoo : o' = o
        · subst hoo
          have hne : (i, k) ≠ (a.of j).who := by
            rw [who_of]
            exact fun e => hik ⟨rfl, e⟩
          simp only [Jobs.setLog, Function.update_self] at hk
          rwa [step_loc_of_ne hl hne] at hk
        · simpa [Jobs.setLog, hoo] using hk
      obtain ⟨h1, h2, h3⟩ := h.callers o' i k hold
      refine ⟨h1, h2, ?_⟩
      by_cases hi : i = j
      · subst hi
        have hoo : o' = o := Option.some.inj (h2.symm.trans ho)
        have hka : k ≠ a.who := fun e => hik ⟨hoo, by rw [e]⟩
        simp only [Jobs.setLog, Function.update_self]
        split
        · exact Finset.mem_insert_of_mem h3
        · exact Finset.mem_erase.mpr ⟨hka, h3⟩
      · simpa [Jobs.setLog, hi] using h3

/-- **One step.** -/
theorem JobsInv.step (h : JobsInv s) {a : JobAct J K} (hok : s.ok a = true) (ha : s.alone a)
    (hs : s.step a = some s') : JobsInv s' := by
  cases a with
  | init j logFile =>
    simp only [Jobs.step] at hs
    split at hs
    · rename_i hp
      cases hs
      have hm := makes_mrLogInit logFile
      rw [hm.afterInit]
      exact h.advance (h.silent (by simp [hp])) (.inl ⟨logFile, hm⟩)
    · cases hs
  | ret j ok =>
    simp only [Jobs.step] at hs
    split at hs
    · rename_i p hp
      obtain ⟨x, hx, rfl⟩ := Option.map_eq_some_iff.mp hs
      exact h.stepInit hp hok hx
    · rename_i p hp
      obtain ⟨x, hx, rfl⟩ := Option.map_eq_some_iff.mp hs
      exact h.stepDestroy hp hok ha hx
    · cases hs
  | log j a =>
    simp only [Jobs.step] at hs
    split at hs
    · rename_i o hp ho
      obtain ⟨l, hl, rfl⟩ := Option.map_eq_some_iff.mp hs
      exact h.stepLog hp ho hok hl
    · cases hs
  | destroy j =>
    simp only [Jobs.step] at hs
    split at hs
    · rename_i hp
      simp only [Option.ite_none_right_eq_some, Option.some.injEq] at hs
      obtain ⟨hact, rfl⟩ := hs
      have hj : ∀ o k, (s.logs o).loc (j, k) = none := by
        intro o k
        by_contra hl
        have := (h.callers o j k hl).2.2
        rw [hact] at this
        cases this
      have hn : s.name.isSome = true := (h.phase j).isSome (by rw [hp]; rfl)
      rw [makes_mrLogDestroy.afterDestroy]
      exact h.advance hj ⟨hn, .inl makes_mrLogDestroy⟩
    · cases hs

/-! ## Every run -/

/-- Every `mr_log_destroy` has returned 0, two running jobs have the same semaphore open, and their log entries exclude
each other. -/
structure Jobs.Independent (s : Jobs J K) : Prop where
  destroyed : ∀ j r, s.phase j = .ended r → r = 0
  shared : ∀ i j, s.phase i = .running → s.phase j = .running → (s.handle i).isSome ∧ s.handle i = s.handle j
  exclusive : ∀ o o' t u, t ∈ (s.logs o).inside → u ∈ (s.logs o').inside → o = o' ∧ t = u

omit [DecidableEq J] [DecidableEq K] in
theorem JobsInv.independent (h : JobsInv s) : s.Independent where
  destroyed j r hp := by
    have := h.phase j
    rwa [hp] at this
  shared i j hi hj := by
    have h1 := h.phase i
    have h2 := h.phase j
    rw [hi] at h1
    rw [hj] at h2
    exact ⟨h1.2 ▸ h1.1, h1.2.trans h2.2.symm⟩
  exclusive o o' t u ht hu := by
    have named : ∀ {o : Nat} {t : J × K}, t ∈ (s.logs o).inside → s.name = some o := by
      rintro o ⟨j, k⟩ ⟨l, hl, -⟩
      obtain ⟨hp, ho, -⟩ := h.callers o j k (by rw [hl]; exact Option.some_ne_none l)
      have hph := h.phase j
      rw [hp] at hph
      exact hph.2.symm.trans ho
    have hoo : o = o' := Option.some.inj ((named ht).symm.trans (named hu))
    subst hoo
    obtain ⟨d, hd⟩ := h.logs o
    exact ⟨rfl, hd.mutual ht hu⟩

/-- **Jobs that take turns share the semaphore safely.** In every run in which a job unlinks the name only when no other
job is between its `mr_log_init` and the end of its `mr_log_destroy`. -/
theorem independent_jobs (J K : Type) [DecidableEq J] [DecidableEq K] {s : Jobs J K}
    (h : Reach (jobSystem J K) (fun s a => s.ok a = true ∧ s.alone a) s) : s.Independent :=
  JobsInv.independent (h.inv JobsInv.init fun _ _ _ hI hP hs => hI.step hP.1 hP.2 hs)

/-- `j` calls `mr_log_init`, which succeeds. -/
def initJob (j : J) : List (JobAct J Unit) := [.init j [], .ret j true, .ret j true]

/-- `j` calls `mr_log_destroy`; `unlinked` says whether `sem_unlink` succeeds. -/
def destroyJob (j : J) (unlinked : Bool) : List (JobAct J Unit) :=
  [.destroy j, .ret j true, .ret j true, .ret j unlinked]

/-- Two jobs that run at the same time, one of them in `mr_log`. -/
theorem independent_jobs_twoJobs : ∃ s : Jobs Bool Unit,
    Reach (jobSystem Bool Unit) (fun s a => s.ok a = true ∧ s.alone a) s ∧
      (s.handle true = some 0 ∧ s.handle false = some 0 ∧ (s.logs 0).loc (true, ()) = some .fprintf) ∧
      s.Independent := by
  -- nobody unlinks the name in this run
  obtain ⟨s, hr, hQ⟩ := reach_of_runP (T := jobSystem Bool Unit)
    (P := fun s a => s.ok a && !s.unlinking true && !s.unlinking false)
    (fun s => s.handle true = some 0 ∧ s.handle false = some 0 ∧ (s.logs 0).loc (true, ()) = some .fprintf)
    (initJob true ++ initJob false ++
      [.log true (.call ()), .log true (.ret () true), .log true (.ret () true)]) (by decide)
  have hr' := hr.mono (Q := fun s a => s.ok a = true ∧ s.alone a) fun s a hP => by
    simp only [Bool.and_eq_true, Bool.not_eq_true'] at hP
    refine ⟨hP.1.1, ?_⟩
    cases a with
    | ret j ok =>
      intro hu
      cases j <;> simp [hP] at hu
    | _ => trivial
  exact ⟨s, hr', hQ, independent_jobs Bool Unit hr'⟩

/-- **Jobs that overlap do not.** The `mr_log_destroy` of the second of two jobs fails when the first has unlinked the
name; and a third job that starts in between has another semaphore than the second. -/
theorem jobs_not_independent :
    (∃ s : Jobs Bool Unit, Reach (jobSystem Bool Unit) (fun s a => s.ok a = true) s ∧
      (s.phase true).result? = some 0 ∧ (s.phase false).result? = some (-1)) ∧
    (∃ s : Jobs (Fin 3) Unit, Reach (jobSystem (Fin 3) Unit) (fun s a => s.ok a = true) s ∧
      (s.phase 1 matches .running) ∧ (s.phase 2 matches .running) ∧ s.handle 1 ≠ s.handle 2 ∧
      (1, ()) ∈ (s.logs 0).inside ∧ (2, ()) ∈ (s.logs 1).inside) := by
  constructor
  · exact reach_of_runP (T := jobSystem Bool Unit) (P := Jobs.ok)
      (fun s => (s.phase true).result? = some 0 ∧ (s.phase false).result? = some (-1))
      (initJob true ++ initJob false ++ destroyJob true true ++ destroyJob false false) (by decide)
  · obtain ⟨s, hr, h1, h2, h3, h4, h5⟩ := reach_of_runP (T := jobSystem (Fin 3) Unit) (P := Jobs.ok)
      (fun s => (s.phase 1 matches .running) ∧ (s.phase 2 matches .running) ∧ s.handle 1 ≠ s.handle 2 ∧
        (s.logs 0).loc (1, ()) = some .fprintf ∧ (s.logs 1).loc (2, ()) = some .fprintf)
      (initJob 0 ++ initJob 1 ++ destroyJob 0 true ++ initJob 2 ++
        [.log 1 (.call ()), .log 1 (.ret () true), .log 1 (.ret () true),
          .log 2 (.call ()), .log 2 (.ret () true), .log 2 (.ret () true)]) (by decide)
    exact ⟨s, hr, h1, h2, h3, mem_inside h4 (by simp), mem_inside h5 (by simp)⟩

end MrLib
