import Mathlib.Data.Finset.Basic
import Mathlib.Logic.Function.Basic
import MrLib.Lib.Lts

/-!
# Threads over mutexes and condition variables

The threads `T` of one process run programs given as control-flow graphs: a location `l : L` is a place where the
program is about to make a call (`Code.call l`), and `Code.next t l r x` is the location it reaches, and the memory it
leaves, when that call has returned `r` and the straight-line code up to the next call has run on the memory `x`. One
step of the system is therefore one call together with the code that follows it.

Calls on mutexes, condition variables and threads have the semantics of C11 `threads.h` (`Code.step`):

* a mutex has at most one owner, only the owner unlocks it;
* `cndWait` takes two steps: the thread releases the mutex and sleeps, and, once a signal, a broadcast or a spurious
  wake-up has moved it from `asleep` to `woken`, it re-acquires the mutex and returns;
* a signal wakes one sleeper if there is one, a broadcast wakes all;
* a failing call (`Ret.fail`) changes nothing, except that a failing `cndWait` of a woken thread returns with the
  mutex held.

Every other call (`Call.ext`) returns what the environment chooses.
-/

namespace Conc

/-- The call a thread is about to make. -/
inductive Call (T M C E : Type)
  | mtxLock (m : M)
  | mtxUnlock (m : M)
  | cndWait (c : C) (m : M)
  | cndSignal (c : C)
  | cndBroadcast (c : C)
  | thrdCreate (u : T)
  | thrdJoin (u : T)
  | ext (e : E)
  /-- The thread function has returned. -/
  | done (code : Int)
  /-- The thread has not been created. -/
  | absent

/-- What a call returns: success, failure, the code of a joined thread, or a value from outside. -/
inductive Ret (V : Type)
  | ok
  | fail
  | code (c : Int)
  | val (v : V)

/-- The programs of the threads. -/
structure Code (T M C E V X L : Type) where
  call : L → Call T M C E
  next : T → L → Ret V → X → L × X
  entry : T → L

structure State (T M C X L : Type) where
  loc : T → L
  owner : M → Option T
  /-- The threads inside `cndWait` that no signal has reached. -/
  asleep : C → Finset T
  /-- The threads inside `cndWait` that were woken and have not yet re-acquired the mutex. -/
  woken : C → Finset T
  mem : X

/-- A scheduling choice. -/
inductive Act (T V : Type)
  /-- The call of `t` returns `r`. -/
  | ret (t : T) (r : Ret V)
  /-- The signal of `t` wakes `u`. -/
  | wake (t u : T)
  /-- `t` releases the mutex inside `cndWait` and sleeps. -/
  | sleep (t : T)
  /-- `u` wakes up although nobody signalled it. -/
  | spurious (u : T)

/-- No call fails in this step. -/
def Act.ok {T V : Type} : Act T V → Bool
  | .ret _ .fail => false
  | _ => true

/-- The step is not a spurious wake-up. -/
def Act.proper {T V : Type} : Act T V → Bool
  | .spurious _ => false
  | _ => true

section

variable {T M C E V X L : Type} [DecidableEq T] [DecidableEq M] [DecidableEq C]

/-- The call of `t` has returned `r`. -/
def Code.advance (P : Code T M C E V X L) (s : State T M C X L) (t : T) (r : Ret V) : State T M C X L :=
  { s with
    loc := Function.update s.loc t (P.next t (s.loc t) r s.mem).1
    mem := (P.next t (s.loc t) r s.mem).2 }

def State.setOwner (s : State T M C X L) (m : M) (o : Option T) : State T M C X L :=
  { s with owner := Function.update s.owner m o }

def State.setAsleep (s : State T M C X L) (c : C) (ts : Finset T) : State T M C X L :=
  { s with asleep := Function.update s.asleep c ts }

def State.setWoken (s : State T M C X L) (c : C) (ts : Finset T) : State T M C X L :=
  { s with woken := Function.update s.woken c ts }

/-- `u` moves from the sleepers of `c` to the woken. -/
def State.rouse (s : State T M C X L) (c : C) (u : T) : State T M C X L :=
  (s.setAsleep c ((s.asleep c).erase u)).setWoken c (insert u (s.woken c))

def Call.isAbsent {T M C E : Type} : Call T M C E → Bool
  | .absent => true
  | _ => false

def Call.code? {T M C E : Type} : Call T M C E → Option Int
  | .done c => some c
  | _ => none

/-- `cndWait` of `t` returns `r`, the mutex being free. -/
def Code.reacquire (P : Code T M C E V X L) (s : State T M C X L) (t : T) (c : C) (m : M) (r : Ret V) :
    Option (State T M C X L) :=
  if t ∈ s.woken c ∧ s.owner m = none then
    some (P.advance ((s.setWoken c ((s.woken c).erase t)).setOwner m (some t)) t r)
  else none

def Code.step (P : Code T M C E V X L) (s : State T M C X L) : Act T V → Option (State T M C X L)
  | .ret t r =>
    match P.call (s.loc t) with
    | .mtxLock m =>
      match r with
      | .ok => if s.owner m = none then some (P.advance (s.setOwner m (some t)) t .ok) else none
      | .fail => some (P.advance s t .fail)
      | _ => none
    | .mtxUnlock m =>
      match r with
      | .ok => if s.owner m = some t then some (P.advance (s.setOwner m none) t .ok) else none
      | .fail => some (P.advance s t .fail)
      | _ => none
    | .cndWait c m =>
      match r with
      | .ok => P.reacquire s t c m .ok
      | .fail =>
        if t ∈ s.asleep c then none
        else if t ∈ s.woken c then P.reacquire s t c m .fail
        else some (P.advance s t .fail)
      | _ => none
    | .cndSignal c =>
      match r with
      | .ok => if s.asleep c = ∅ then some (P.advance s t .ok) else none
      | .fail => some (P.advance s t .fail)
      | _ => none
    | .cndBroadcast c =>
      match r with
      | .ok => some (P.advance ((s.setWoken c (s.woken c ∪ s.asleep c)).setAsleep c ∅) t .ok)
      | .fail => some (P.advance s t .fail)
      | _ => none
    | .thrdCreate u =>
      match r with
      | .ok =>
        if (P.call (s.loc u)).isAbsent then
          some (P.advance { s with loc := Function.update s.loc u (P.entry u) } t .ok)
        else none
      | .fail => some (P.advance s t .fail)
      | _ => none
    | .thrdJoin u =>
      match r with
      | .ok => (P.call (s.loc u)).code?.map fun c => P.advance s t (.code c)
      | .fail => some (P.advance s t .fail)
      | _ => none
    | .ext _ => some (P.advance s t r)
    | .done _ => none
    | .absent => none
  | .wake t u =>
    match P.call (s.loc t) with
    | .cndSignal c => if u ∈ s.asleep c then some (P.advance (s.rouse c u) t .ok) else none
    | _ => none
  | .sleep t =>
    match P.call (s.loc t) with
    | .cndWait c m =>
      if s.owner m = some t ∧ t ∉ s.asleep c ∧ t ∉ s.woken c then
        some ((s.setOwner m none).setAsleep c (insert t (s.asleep c)))
      else none
    | _ => none
  | .spurious u =>
    match P.call (s.loc u) with
    | .cndWait c _ => if u ∈ s.asleep c then some (s.rouse c u) else none
    | _ => none

/-! ## What a step can do -/

/-- The calls that can fail without having waited. -/
def Call.canFail {T M C E : Type} : Call T M C E → Bool
  | .mtxLock _ | .mtxUnlock _ | .cndSignal _ | .cndBroadcast _ | .thrdCreate _ | .thrdJoin _ => true
  | _ => false

/-- The steps, one constructor for each thing a call can do. -/
inductive Trans (P : Code T M C E V X L) (s : State T M C X L) : Act T V → State T M C X L → Prop
  | lock {t : T} {m : M} (hc : P.call (s.loc t) = .mtxLock m) (ho : s.owner m = none) :
      Trans P s (.ret t .ok) (P.advance (s.setOwner m (some t)) t .ok)
  | unlock {t : T} {m : M} (hc : P.call (s.loc t) = .mtxUnlock m) (ho : s.owner m = some t) :
      Trans P s (.ret t .ok) (P.advance (s.setOwner m none) t .ok)
  | sleep {t : T} {c : C} {m : M} (hc : P.call (s.loc t) = .cndWait c m) (ho : s.owner m = some t)
      (ha : t ∉ s.asleep c) (hw : t ∉ s.woken c) :
      Trans P s (.sleep t) ((s.setOwner m none).setAsleep c (insert t (s.asleep c)))
  | reacquire {t : T} {c : C} {m : M} {r : Ret V} (hc : P.call (s.loc t) = .cndWait c m) (hw : t ∈ s.woken c)
      (ho : s.owner m = none) (hr : r = .ok ∨ r = .fail ∧ t ∉ s.asleep c) :
      Trans P s (.ret t r) (P.advance ((s.setWoken c ((s.woken c).erase t)).setOwner m (some t)) t r)
  | waitFail {t : T} {c : C} {m : M} (hc : P.call (s.loc t) = .cndWait c m) (ha : t ∉ s.asleep c)
      (hw : t ∉ s.woken c) : Trans P s (.ret t .fail) (P.advance s t .fail)
  | signal {t u : T} {c : C} (hc : P.call (s.loc t) = .cndSignal c) (hu : u ∈ s.asleep c) :
      Trans P s (.wake t u) (P.advance (s.rouse c u) t .ok)
  | signalNone {t : T} {c : C} (hc : P.call (s.loc t) = .cndSignal c) (hu : s.asleep c = ∅) :
      Trans P s (.ret t .ok) (P.advance s t .ok)
  | broadcast {t : T} {c : C} (hc : P.call (s.loc t) = .cndBroadcast c) :
      Trans P s (.ret t .ok) (P.advance ((s.setWoken c (s.woken c ∪ s.asleep c)).setAsleep c ∅) t .ok)
  | create {t u : T} (hc : P.call (s.loc t) = .thrdCreate u) (hu : P.call (s.loc u) = .absent) :
      Trans P s (.ret t .ok) (P.advance { s with loc := Function.update s.loc u (P.entry u) } t .ok)
  | join {t u : T} {k : Int} (hc : P.call (s.loc t) = .thrdJoin u) (hu : P.call (s.loc u) = .done k) :
      Trans P s (.ret t .ok) (P.advance s t (.code k))
  | ext {t : T} {e : E} {r : Ret V} (hc : P.call (s.loc t) = .ext e) : Trans P s (.ret t r) (P.advance s t r)
  | fail {t : T} (hc : (P.call (s.loc t)).canFail = true) : Trans P s (.ret t .fail) (P.advance s t .fail)
  | spurious {u : T} {c : C} {m : M} (hc : P.call (s.loc u) = .cndWait c m) (hu : u ∈ s.asleep c) :
      Trans P s (.spurious u) (s.rouse c u)

theorem Call.isAbsent_iff {T M C E : Type} {c : Call T M C E} : c.isAbsent = true ↔ c = .absent := by
  cases c <;> simp [Call.isAbsent]

theorem Call.code?_eq {T M C E : Type} {c : Call T M C E} {k : Int} : c.code? = some k ↔ c = .done k := by
  cases c <;> simp [Call.code?]

/-- **Inversion of a step.** -/
theorem Code.trans_of_step {P : Code T M C E V X L} {s s' : State T M C X L} {a : Act T V}
    (h : P.step s a = some s') : Trans P s a s' := by
  cases a with
  | ret t r =>
    cases hc : P.call (s.loc t) with
    | mtxLock m =>
      cases r with
      | ok =>
        simp only [step, hc, Option.ite_none_right_eq_some, Option.some.injEq] at h
        obtain ⟨ho, rfl⟩ := h
        exact .lock hc ho
      | fail => simp only [step, hc, Option.some.injEq] at h; subst h; exact .fail (by rw [hc]; rfl)
      | code _ => simp [step, hc] at h
      | val _ => simp [step, hc] at h
    | mtxUnlock m =>
      cases r with
      | ok =>
        simp only [step, hc, Option.ite_none_right_eq_some, Option.some.injEq] at h
        obtain ⟨ho, rfl⟩ := h
        exact .unlock hc ho
      | fail => simp only [step, hc, Option.some.injEq] at h; subst h; exact .fail (by rw [hc]; rfl)
      | code _ => simp [step, hc] at h
      | val _ => simp [step, hc] at h
    | cndWait c m =>
      cases r with
      | ok =>
        simp only [step, hc, reacquire, Option.ite_none_right_eq_some, Option.some.injEq] at h
        obtain ⟨⟨hw, ho⟩, rfl⟩ := h
        exact .reacquire hc hw ho (.inl rfl)
      | fail =>
        simp only [step, hc] at h
        split at h
        · cases h
        · rename_i ha
          split at h
          · simp only [reacquire, Option.ite_none_right_eq_some, Option.some.injEq] at h
            obtain ⟨⟨hw, ho⟩, rfl⟩ := h
            exact .reacquire hc hw ho (.inr ⟨rfl, ha⟩)
          · rename_i hw
            cases h
            exact .waitFail hc ha hw
      | code _ => simp [step, hc] at h
      | val _ => simp [step, hc] at h
    | cndSignal c =>
      cases r with
      | ok =>
        simp only [step, hc, Option.ite_none_right_eq_some, Option.some.injEq] at h
        obtain ⟨hu, rfl⟩ := h
        exact .signalNone hc hu
      | fail => simp only [step, hc, Option.some.injEq] at h; subst h; exact .fail (by rw [hc]; rfl)
      | code _ => simp [step, hc] at h
      | val _ => simp [step, hc] at h
    | cndBroadcast c =>
      cases r with
      | ok => simp only [step, hc, Option.some.injEq] at h; subst h; exact .broadcast hc
      | fail => simp only [step, hc, Option.some.injEq] at h; subst h; exact .fail (by rw [hc]; rfl)
      | code _ => simp [step, hc] at h
      | val _ => simp [step, hc] at h
    | thrdCreate u =>
      cases r with
      | ok =>
        simp only [step, hc, Option.ite_none_right_eq_some, Option.some.injEq] at h
        obtain ⟨hu, rfl⟩ := h
        exact .create hc (Call.isAbsent_iff.mp hu)
      | fail => simp only [step, hc, Option.some.injEq] at h; subst h; exact .fail (by rw [hc]; rfl)
      | code _ => simp [step, hc] at h
      | val _ => simp [step, hc] at h
    | thrdJoin u =>
      cases r with
      | ok =>
        simp only [step, hc, Option.map_eq_some_iff] at h
        obtain ⟨k, hu, rfl⟩ := h
        exact .join hc (Call.code?_eq.mp hu)
      | fail => simp only [step, hc, Option.some.injEq] at h; subst h; exact .fail (by rw [hc]; rfl)
      | code _ => simp [step, hc] at h
      | val _ => simp [step, hc] at h
    | ext e => simp only [step, hc, Option.some.injEq] at h; subst h; exact .ext hc
    | done _ => simp [step, hc] at h
    | absent => simp [step, hc] at h
  | wake t u =>
    cases hc : P.call (s.loc t) with
    | cndSignal c =>
      simp only [step, hc, Option.ite_none_right_eq_some, Option.some.injEq] at h
      obtain ⟨hu, rfl⟩ := h
      exact .signal hc hu
    | _ => simp [step, hc] at h
  | sleep t =>
    cases hc : P.call (s.loc t) with
    | cndWait c m =>
      simp only [step, hc, Option.ite_none_right_eq_some, Option.some.injEq] at h
      obtain ⟨⟨ho, ha, hw⟩, rfl⟩ := h
      exact .sleep hc ho ha hw
    | _ => simp [step, hc] at h
  | spurious u =>
    cases hc : P.call (s.loc u) with
    | cndWait c m =>
      simp only [step, hc, Option.ite_none_right_eq_some, Option.some.injEq] at h
      obtain ⟨hu, rfl⟩ := h
      exact .spurious hc hu
    | _ => simp [step, hc] at h

/-! ## What a step does to locations and memory -/

/-- What the call of `t` may have returned. -/
def Code.Answers (P : Code T M C E V X L) (s : State T M C X L) (t : T) (r : Ret V) : Prop :=
  match P.call (s.loc t) with
  | .mtxLock _ | .mtxUnlock _ | .cndWait _ _ | .cndSignal _ | .cndBroadcast _ => r = .ok ∨ r = .fail
  | .thrdCreate _ => r = .fail
  | .thrdJoin u => r = .fail ∨ ∃ k, P.call (s.loc u) = .done k ∧ r = .code k
  | .ext _ => True
  | .done _ | .absent => False

/-- An external call returns by its own action. -/
def Code.Direct (P : Code T M C E V X L) (s : State T M C X L) (a : Act T V) (t : T) (r : Ret V) : Prop :=
  ∀ e, P.call (s.loc t) = .ext e → a = .ret t r

/-- The action by which the call of `t` comes to return `r`: that return, a signal, or a join of a thread with the
code. -/
def Act.returns {T V : Type} (a : Act T V) (t : T) (r : Ret V) : Prop :=
  a = .ret t r ∨ (r = .ok ∧ ∃ u, a = .wake t u) ∨ ∃ k, r = .code k ∧ a = .ret t .ok

theorem Act.returns.fail {T V : Type} {a : Act T V} {t : T} (h : a.returns t .fail) : a = .ret t .fail := by
  rcases h with h | ⟨h, -⟩ | ⟨k, h, -⟩
  · exact h
  · cases h
  · cases h

theorem Act.returns.val {T V : Type} {a : Act T V} {t : T} {v : V} (h : a.returns t (.val v)) :
    a = .ret t (.val v) := by
  rcases h with h | ⟨h, -⟩ | ⟨k, h, -⟩
  · exact h
  · cases h
  · cases h

theorem Act.returns.ne_fail {T V : Type} {a : Act T V} {t : T} {r : Ret V} (h : a.returns t r) (hok : a.ok = true) :
    r ≠ .fail := by
  rintro rfl
  rw [h.fail] at hok
  cases hok

/-- The part of a step that concerns the locations and the memory: at most one thread moves, and a thread that creates
another also starts it. -/
inductive Move (P : Code T M C E V X L) (s : State T M C X L) (a : Act T V) (s' : State T M C X L) : Prop
  | stay (ha : ∀ t r, a ≠ .ret t r) (hl : s'.loc = s.loc) (hm : s'.mem = s.mem)
  | call (t : T) (r : Ret V) (hr : P.Answers s t r) (ha : a.returns t r) (hx : P.Direct s a t r)
      (hl : s'.loc = Function.update s.loc t (P.next t (s.loc t) r s.mem).1)
      (hm : s'.mem = (P.next t (s.loc t) r s.mem).2)
  | create (t u : T) (ha : a = .ret t .ok) (hc : P.call (s.loc t) = .thrdCreate u)
      (hu : P.call (s.loc u) = .absent)
      (hl : s'.loc = Function.update (Function.update s.loc u (P.entry u)) t (P.next t (s.loc t) .ok s.mem).1)
      (hm : s'.mem = (P.next t (s.loc t) .ok s.mem).2)

theorem Trans.move {P : Code T M C E V X L} {s s' : State T M C X L} {a : Act T V} (h : Trans P s a s') :
    Move P s a s' := by
  cases h with
  | @lock t m hc ho => exact .call t .ok (by simp [Code.Answers, hc]) (.inl rfl) (fun _ _ => rfl) rfl rfl
  | @unlock t m hc ho => exact .call t .ok (by simp [Code.Answers, hc]) (.inl rfl) (fun _ _ => rfl) rfl rfl
  | sleep _ _ _ _ => exact .stay (fun _ _ => nofun) rfl rfl
  | @reacquire t c m r hc hw ho hr =>
    refine .call t r ?_ (.inl rfl) (fun _ _ => rfl) rfl rfl
    simp only [Code.Answers, hc]
    exact hr.imp_right And.left
  | @waitFail t c m hc _ _ => exact .call t .fail (by simp [Code.Answers, hc]) (.inl rfl) (fun _ _ => rfl) rfl rfl
  | @signal t u c hc _ => exact .call t .ok (by simp [Code.Answers, hc]) (.inr (.inl ⟨rfl, u, rfl⟩)) (by simp [Code.Direct, hc]) rfl rfl
  | @signalNone t c hc _ => exact .call t .ok (by simp [Code.Answers, hc]) (.inl rfl) (fun _ _ => rfl) rfl rfl
  | @broadcast t c hc => exact .call t .ok (by simp [Code.Answers, hc]) (.inl rfl) (fun _ _ => rfl) rfl rfl
  | @create t u hc hu =>
    have hut : t ≠ u := by
      rintro rfl
      rw [hc] at hu
      cases hu
    exact .create t u rfl hc hu (by simp [Code.advance, hut]) (by simp [Code.advance, hut])
  | @join t u k hc hu => exact .call t (.code k) (by simp [Code.Answers, hc, hu]) (.inr (.inr ⟨k, rfl, rfl⟩)) (by simp [Code.Direct, hc]) rfl rfl
  | @ext t e r hc => exact .call t r (by simp [Code.Answers, hc]) (.inl rfl) (fun _ _ => rfl) rfl rfl
  | @fail t hc =>
    refine .call t .fail ?_ (.inl rfl) (fun _ _ => rfl) rfl rfl
    unfold Code.Answers
    cases hk : P.call (s.loc t) <;> simp_all [Call.canFail]
  | spurious _ _ => exact .stay (fun _ _ => nofun) rfl rfl

end

end Conc
