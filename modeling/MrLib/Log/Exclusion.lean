import MrLib.Lib.Permits
import MrLib.Log

/-!
# Who is in the log

Any number of callers `T` (threads of any processes) share one log semaphore of value 1 and run `mr_log` at any time, one
call of it after another (`logSystem`). A step begins a call of `mr_log`, or is the return of the call a caller of
`mr_log` is making; whether it fails is up to the environment, except that a `sem_wait` succeeds on a positive value only.

A failing `fflush` posts the semaphore twice (`LogLoc.postFlush`), so that from then on two callers can be inside at once
(`log_not_exclusive`). Without one, the value and the callers inside add up to 1 in every state reached
(`log_exclusion`).
-/

namespace MrLib

open Conc

/-- The callers of `mr_log` on one semaphore. -/
structure LogState (T : Type) where
  /-- The value of the semaphore. -/
  sem : Nat
  /-- Where a caller is in `mr_log`, if it is there. -/
  loc : T → Option LogLoc
  /-- The `sem_wait`s of a caller that have succeeded so far. -/
  waits : T → Nat
  /-- The `sem_post`s of a caller that have succeeded so far. -/
  posts : T → Nat

inductive LogAct (T : Type)
  /-- `t` calls `mr_log`. -/
  | call (t : T)
  /-- The call that `t` makes in `mr_log` returns. -/
  | ret (t : T) (ok : Bool)

/-- The caller that a step is about. -/
def LogAct.who {T : Type} : LogAct T → T
  | .call t | .ret t _ => t

/-- The location after a call, `none` when `mr_log` has returned. -/
def LogLoc.after (l : LogLoc) (ok : Bool) : Option LogLoc := (l.next (if ok then (.ok : Ret Unit) else .fail)).getLeft?

variable {T : Type}

/-- `t` is between its successful `sem_wait` and its last `sem_post`. -/
def LogState.inside (s : LogState T) : Set T := {t | ∃ l, s.loc t = some l ∧ l ≠ .wait}

variable [DecidableEq T]

def LogState.move (s : LogState T) (t : T) (l : Option LogLoc) : LogState T :=
  { s with loc := Function.update s.loc t l }

/-- What a call of `t` does to the semaphore. -/
def LogState.perform (s : LogState T) (t : T) : LogCall → Bool → Option (LogState T)
  | .semWait, true =>
    if 0 < s.sem then
      some { s with sem := s.sem - 1, waits := Function.update s.waits t (s.waits t + 1) }
    else none
  | .semPost, true => some { s with sem := s.sem + 1, posts := Function.update s.posts t (s.posts t + 1) }
  | _, _ => some s

def LogState.step (s : LogState T) : LogAct T → Option (LogState T)
  | .call t => if s.loc t = none then some (s.move t (some .wait)) else none
  | .ret t ok => (s.loc t).bind fun l => (s.perform t l.call ok).map fun s' => s'.move t (l.after ok)

def LogState.init : LogState T := ⟨1, fun _ => none, fun _ => 0, fun _ => 0⟩

/-- `mr_log` of all callers. -/
def logSystem (T : Type) [DecidableEq T] : Lts (LogState T) (LogAct T) where
  init := .init
  step := LogState.step

/-- Every call of `c` that returns in this step succeeds. -/
def LogState.succeeds (c : LogCall) (s : LogState T) : LogAct T → Bool
  | .ret t ok => (s.loc t).map LogLoc.call = some c → ok
  | .call _ => true

/-! ## One step -/

variable {s s' : LogState T} {t u : T}

@[simp] theorem move_sem (l : Option LogLoc) : (s.move t l).sem = s.sem := rfl
@[simp] theorem move_waits (l : Option LogLoc) : (s.move t l).waits = s.waits := rfl
@[simp] theorem move_posts (l : Option LogLoc) : (s.move t l).posts = s.posts := rfl
@[simp] theorem move_loc_self (l : Option LogLoc) : (s.move t l).loc t = l := by simp [LogState.move]

theorem move_loc_of_ne (l : Option LogLoc) (h : u ≠ t) : (s.move t l).loc u = s.loc u := by simp [LogState.move, h]

omit [DecidableEq T] in
theorem inside_congr {s s' : LogState T} (h : s.loc = s'.loc) : s.inside = s'.inside := by
  unfold LogState.inside
  rw [h]

theorem inside_enter {l : LogLoc} (h : l ≠ .wait) : (s.move t (some l)).inside = insert t s.inside := by
  ext u
  by_cases hu : u = t
  · subst hu
    simp [LogState.inside, h]
  · simp [LogState.inside, move_loc_of_ne _ hu, hu]

theorem inside_leave {o : Option LogLoc} (h : o = none ∨ o = some .wait) : (s.move t o).inside = s.inside \ {t} := by
  ext u
  by_cases hu : u = t
  · subst hu
    rcases h with rfl | rfl <;> simp [LogState.inside]
  · simp [LogState.inside, move_loc_of_ne _ hu, hu]

theorem perform_loc {c : LogCall} {ok : Bool} (h : s.perform t c ok = some s') : s'.loc = s.loc := by
  cases c <;> cases ok <;> simp only [LogState.perform, Option.ite_none_right_eq_some, Option.some.injEq] at h
  case semWait.true => rw [← h.2]
  all_goals rw [← h]

/-- Nobody else moves. -/
theorem step_loc_of_ne {a : LogAct T} (h : s.step a = some s') (hu : u ≠ a.who) : s'.loc u = s.loc u := by
  cases a with
  | call t =>
    simp only [LogState.step, Option.ite_none_right_eq_some, Option.some.injEq] at h
    rw [← h.2]
    exact move_loc_of_ne _ hu
  | ret t ok =>
    simp only [LogState.step, Option.bind_eq_some_iff, Option.map_eq_some_iff] at h
    obtain ⟨l, -, e, he, rfl⟩ := h
    exact (move_loc_of_ne _ hu).trans (by rw [perform_loc he])

/-- The invariant of the semaphore; `d` of its permits are lost, by `sem_post`s that failed. -/
structure LogInv (d : Nat) (s : LogState T) : Prop where
  permits : Permits 1 s.sem s.inside d
  flushed : ∀ t, s.loc t ≠ some .postFlush

omit [DecidableEq T] in
/-- **Exclusion**, whatever has failed. -/
theorem LogInv.mutual {d : Nat} (h : LogInv d s) (ht : t ∈ s.inside) (hu : u ∈ s.inside) : t = u :=
  h.permits.mutual ht hu

/-- The calls between the `sem_wait` and the `sem_post`s: `mr_log` goes on to the next, or to `sem_post`. -/
theorem after_inside {l : LogLoc} (ok : Bool) (hw : l ≠ .wait) (hp : l.call ≠ .semPost)
    (hf : l.call = .fflush → ok = true) : ∃ l', l.after ok = some l' ∧ l' ≠ .wait ∧ l' ≠ .postFlush := by
  cases l <;> cases ok <;> simp_all [LogLoc.after, LogLoc.next, LogLoc.call]

/-- Both other `sem_post`s are the last call of `mr_log`. -/
theorem after_post {l : LogLoc} (ok : Bool) (hp : l.call = .semPost) (hf : l ≠ .postFlush) : l.after ok = none := by
  cases l <;> cases ok <;> simp_all [LogLoc.after, LogLoc.next, LogLoc.call]

omit [DecidableEq T] in
theorem mem_inside {l : LogLoc} (hl : s.loc t = some l) (hw : l ≠ .wait) : t ∈ s.inside := ⟨l, hl, hw⟩

omit [DecidableEq T] in
theorem notMem_inside (hl : s.loc t = none ∨ s.loc t = some .wait) : t ∉ s.inside := by
  rintro ⟨l, hl', hw⟩
  rcases hl with hl | hl <;> rw [hl] at hl' <;> cases hl'
  exact hw rfl

/-- The locations after a move. -/
theorem flushed_move (h : ∀ t, s.loc t ≠ some .postFlush) {o : Option LogLoc} (ho : o ≠ some .postFlush) (u : T) :
    (s.move t o).loc u ≠ some .postFlush := by
  by_cases hu : u = t
  · subst hu
    rwa [move_loc_self]
  · rw [move_loc_of_ne _ hu]
    exact h u

/-- What a step does: a caller comes or gives up at the semaphore, enters, goes on inside, or leaves, with a `sem_post`
that succeeds or fails. -/
inductive LogStep (s : LogState T) : LogAct T → LogState T → Prop
  | call {t : T} (hl : s.loc t = none) : LogStep s (.call t) (s.move t (some .wait))
  | refused {t : T} (hl : s.loc t = some .wait) : LogStep s (.ret t false) (s.move t none)
  | enter {t : T} {e : LogState T} (hl : s.loc t = some .wait) (hs : s.sem = e.sem + 1) (hle : e.loc = s.loc)
      (hw : e.waits = Function.update s.waits t (s.waits t + 1)) (hp : e.posts = s.posts) :
      LogStep s (.ret t true) (e.move t (some .time))
  | inside {t : T} {l l' : LogLoc} {ok : Bool} (hl : s.loc t = some l) (hw : l ≠ .wait) (hw' : l' ≠ .wait)
      (hf : l' ≠ .postFlush) : LogStep s (.ret t ok) (s.move t (some l'))
  | leave {t : T} {l : LogLoc} {e : LogState T} (hl : s.loc t = some l) (hw : l ≠ .wait) (hs : e.sem = s.sem + 1)
      (hle : e.loc = s.loc) (hwt : e.waits = s.waits)
      (hp : e.posts = Function.update s.posts t (s.posts t + 1)) : LogStep s (.ret t true) (e.move t none)
  | leaveFailed {t : T} {l : LogLoc} (hl : s.loc t = some l) (hc : l.call = .semPost) :
      LogStep s (.ret t false) (s.move t none)

theorem logStep_of_step {a : LogAct T} (hI : ∀ t, s.loc t ≠ some .postFlush) (hf : s.succeeds .fflush a = true)
    (h : s.step a = some s') : LogStep s a s' := by
  cases a with
  | call t =>
    simp only [LogState.step, Option.ite_none_right_eq_some, Option.some.injEq] at h
    obtain ⟨hl, rfl⟩ := h
    exact .call hl
  | ret t ok =>
    simp only [LogState.step, Option.bind_eq_some_iff, Option.map_eq_some_iff] at h
    obtain ⟨l, hl, e, he, rfl⟩ := h
    simp only [LogState.succeeds, hl, Option.map_some, Option.some.injEq, decide_eq_true_eq] at hf
    by_cases hw : l = .wait
    · subst hw
      cases ok with
      | false =>
        cases he
        exact .refused hl
      | true =>
        simp only [LogLoc.call, LogState.perform, Option.ite_none_right_eq_some, Option.some.injEq] at he
        obtain ⟨hs, rfl⟩ := he
        exact .enter hl (by simp only; omega) rfl rfl rfl
    · by_cases hp : l.call = .semPost
      · rw [hp] at he
        rw [after_post ok hp fun e => hI t (e ▸ hl)]
        cases ok with
        | false =>
          cases he
          exact .leaveFailed hl hp
        | true =>
          cases he
          exact .leave hl hw rfl rfl rfl rfl
      · obtain ⟨l', hl', hw', hf'⟩ := after_inside ok hw hp hf
        have hes : e = s := by
          cases l <;> cases ok <;> simp_all [LogLoc.call, LogState.perform]
        rw [hl', hes]
        exact .inside hl hw hw' hf'

/-- **One step** keeps the sum; a permit is lost only by a `sem_post` that fails. -/
theorem LogInv.step {d : Nat} {a : LogAct T} (hI : LogInv d s) (hf : s.succeeds .fflush a = true)
    (h : s.step a = some s') : ∃ d', LogInv d' s' ∧ (s.succeeds .semPost a = true → d' = d) := by
  cases logStep_of_step hI.flushed hf h with
  | @call t hl =>
    refine ⟨d, ⟨?_, flushed_move hI.flushed (by simp)⟩, fun _ => rfl⟩
    rw [inside_leave (.inr rfl), Set.sdiff_singleton_eq_self (notMem_inside (.inl hl))]
    exact hI.permits
  | @refused t hl =>
    refine ⟨d, ⟨?_, flushed_move hI.flushed (by simp)⟩, fun _ => rfl⟩
    rw [inside_leave (.inl rfl), Set.sdiff_singleton_eq_self (notMem_inside (.inr hl))]
    exact hI.permits
  | @enter t e hl hs hle =>
    refine ⟨d, ⟨?_, flushed_move (hle ▸ hI.flushed) (by simp)⟩, fun _ => rfl⟩
    rw [inside_enter (by simp), inside_congr hle]
    exact Permits.acquire (hs ▸ hI.permits) (notMem_inside (.inr hl))
  | @inside t l l' ok hl hw hw' hf' =>
    refine ⟨d, ⟨?_, flushed_move hI.flushed (by simpa using hf')⟩, fun _ => rfl⟩
    rw [inside_enter hw', Set.insert_eq_of_mem (mem_inside hl hw)]
    exact hI.permits
  | @leave t l e hl hw hs hle =>
    refine ⟨d, ⟨?_, flushed_move (hle ▸ hI.flushed) (by simp)⟩, fun _ => rfl⟩
    rw [inside_leave (.inl rfl), inside_congr hle, move_sem, hs]
    exact hI.permits.release (mem_inside hl hw)
  | @leaveFailed t l hl hc =>
    refine ⟨d + 1, ⟨?_, flushed_move hI.flushed (by simp)⟩, fun hp => ?_⟩
    · rw [inside_leave (.inl rfl)]
      exact hI.permits.lose (mem_inside hl (by rintro rfl; cases hc))
    · simp [LogState.succeeds, hl, hc] at hp

omit [DecidableEq T] in
theorem LogInv.init : LogInv 0 (LogState.init : LogState T) where
  permits := by
    have : (LogState.init : LogState T).inside = ∅ := by simp [LogState.inside, LogState.init]
    rw [this]
    exact Permits.all_free
  flushed _ := by simp [LogState.init]

/-! ## Every run -/

/-- A caller inside has waited once more than it has posted, every other as often. -/
def LogState.Balanced (s : LogState T) : Prop :=
  ∀ t, (t ∈ s.inside → s.waits t = s.posts t + 1) ∧ (t ∉ s.inside → s.waits t = s.posts t)

theorem mem_inside_move (o : Option LogLoc) (h : u ≠ t) : u ∈ (s.move t o).inside ↔ u ∈ s.inside := by
  simp [LogState.inside, move_loc_of_ne o h]

/-- Only `t` moves; the others' counts are as they were. -/
theorem LogState.Balanced.move {e : LogState T} {o : Option LogLoc} (h : s.Balanced) (hl : e.loc = s.loc)
    (hw : ∀ u, u ≠ t → e.waits u = s.waits u) (hp : ∀ u, u ≠ t → e.posts u = s.posts u)
    (ht : (t ∈ (e.move t o).inside → e.waits t = e.posts t + 1) ∧ (t ∉ (e.move t o).inside → e.waits t = e.posts t)) :
    (e.move t o).Balanced := by
  intro u
  by_cases hu : u = t
  · subst hu
    exact ht
  · rw [mem_inside_move o hu, inside_congr hl, move_waits, move_posts, hw u hu, hp u hu]
    exact h u

theorem LogState.Balanced.step {a : LogAct T} (hI : ∀ t, s.loc t ≠ some .postFlush) (hB : s.Balanced)
    (hf : s.succeeds .fflush a = true) (hp : s.succeeds .semPost a = true) (h : s.step a = some s') : s'.Balanced := by
  cases logStep_of_step hI hf h with
  | @call t hl =>
    have ht := (hB t).2 (notMem_inside (.inl hl))
    refine hB.move rfl (fun _ _ => rfl) (fun _ _ => rfl) ⟨fun hin => ?_, fun _ => ht⟩
    rw [inside_leave (.inr rfl)] at hin
    exact absurd rfl hin.2
  | @refused t hl =>
    have ht := (hB t).2 (notMem_inside (.inr hl))
    refine hB.move rfl (fun _ _ => rfl) (fun _ _ => rfl) ⟨fun hin => ?_, fun _ => ht⟩
    rw [inside_leave (.inl rfl)] at hin
    exact absurd rfl hin.2
  | @enter t e hl hs hle hew hep =>
    have ht := (hB t).2 (notMem_inside (.inr hl))
    refine hB.move hle (fun u hu => by simp [hew, hu]) (fun u _ => by rw [hep]) ⟨fun _ => ?_, fun hout => ?_⟩
    · rw [hew, hep, Function.update_self, ht]
    · rw [inside_enter (by simp)] at hout
      exact absurd (Set.mem_insert t _) hout
  | @inside t l l' ok hl hw hw' hf' =>
    have ht := (hB t).1 (mem_inside hl hw)
    refine hB.move rfl (fun _ _ => rfl) (fun _ _ => rfl) ⟨fun _ => ht, fun hout => ?_⟩
    rw [inside_enter hw'] at hout
    exact absurd (Set.mem_insert t _) hout
  | @leave t l e hl hw hs hle hew hep =>
    have ht := (hB t).1 (mem_inside hl hw)
    refine hB.move hle (fun u _ => by rw [hew]) (fun u hu => by simp [hep, hu]) ⟨fun hin => ?_, fun _ => ?_⟩
    · rw [inside_leave (.inl rfl)] at hin
      exact absurd rfl hin.2
    · rw [hew, hep, Function.update_self, ht]
  | @leaveFailed t l hl hc => simp [LogState.succeeds, hl, hc] at hp

/-- At most one caller is inside, the value and the callers inside add up to 1, and whoever is not inside has left the
semaphore as it found it. -/
structure LogState.Exclusive (s : LogState T) : Prop where
  mutual_exclusion : ∀ t ∈ s.inside, ∀ u ∈ s.inside, t = u
  sum : (s.sem : ℕ∞) + s.inside.encard = 1
  balanced : s.Balanced

/-- A `sem_post` that fails is no step of these runs. -/
def LogState.posting (s : LogState T) (a : LogAct T) : Bool := s.succeeds .semPost a

/-- **One caller at a time.** In every run in which no `fflush` fails, whatever the other calls return. -/
theorem log_exclusion (T : Type) [DecidableEq T] {s : LogState T}
    (h : Reach (logSystem T) (fun s a => s.posting a = true ∧ s.succeeds .fflush a = true) s) : s.Exclusive := by
  have hI : LogInv 0 s ∧ s.Balanced := by
    refine h.inv (I := fun s => LogInv 0 s ∧ s.Balanced) ⟨LogInv.init, fun t => ⟨?_, fun _ => rfl⟩⟩
      fun s a s' hI hP hs => ?_
    · rintro ⟨l, hl, -⟩
      cases hl
    · obtain ⟨d, hd, hd0⟩ := hI.1.step hP.2 hs
      exact ⟨hd0 hP.1 ▸ hd, hI.2.step hI.1.flushed hP.2 hP.1 hs⟩
  refine ⟨fun t ht u hu => hI.1.mutual ht hu, ?_, hI.2⟩
  simpa [Permits] using hI.1.permits

/-- A caller that logs, and another that waits for it. -/
theorem log_exclusion_twoCallers : ∃ s : LogState Bool,
    Reach (logSystem Bool) (fun s a => s.posting a = true ∧ s.succeeds .fflush a = true) s ∧
      s.loc true = some .fprintf ∧ s.loc false = some .wait ∧ s.Exclusive := by
  obtain ⟨s, hr, hQ⟩ := reach_of_runP (T := logSystem Bool) (P := fun s a => s.posting a && s.succeeds .fflush a)
    (fun s => s.loc true = some .fprintf ∧ s.loc false = some .wait)
    [.call true, .call false, .ret true true, .ret true true] (by decide)
  have hr' := hr.mono fun s a => (Bool.and_eq_true _ _).mp
  exact ⟨s, hr', hQ.1, hQ.2, log_exclusion Bool hr'⟩

/-- The calls of `mr_log` up to `fflush` succeed, and `fflush` fails. -/
def fflushFails (t : Bool) : List (LogAct Bool) :=
  .call t :: List.replicate 5 (.ret t true) ++ [.ret t false, .ret t true, .ret t true]

/-- **A failing `fflush` lets two callers in.** -/
theorem log_not_exclusive : ∃ s : LogState Bool, Reach (logSystem Bool) (fun s a => s.posting a = true) s ∧
    s.loc true = some .fprintf ∧ s.loc false = some .fprintf ∧ ¬ s.Exclusive := by
  obtain ⟨s, hr, h1, h2⟩ := reach_of_runP (T := logSystem Bool) (P := LogState.posting)
    (fun s => s.loc true = some .fprintf ∧ s.loc false = some .fprintf)
    (fflushFails true ++
      [.call true, .call false, .ret true true, .ret true true, .ret false true, .ret false true]) (by decide)
  refine ⟨s, hr, h1, h2, fun he => ?_⟩
  have := he.mutual_exclusion true (mem_inside h1 (by simp)) false (mem_inside h2 (by simp))
  cases this

end MrLib
