import MrLib.Lib.Guarded
import MrLib.Runtime

/-!
# Emits do not mix

`mapper_emit` and `reducer_emit` write a message in several calls, each of which may write a part only. As they hold
`stdout_mutex` from the first to the last, what a process has written is a sequence of whole messages, and a part of
one more while a thread is inside (`Untorn`). `Untorn.step` is the step lemma, for every client and whatever fails, as
long as no write fails with a part of its message out (`tears`): the messages written are in the list `log`, each with
the thread that emitted it, and grow by one exactly when a thread has written the last byte of its message. `Framed` is
what holds besides when no call fails at all.
-/

namespace MrLib

open Conc

variable {T β μ F : Type} {es : Nat}

/-- Between the lock of `stdout_mutex` and its unlock. -/
def EmitLoc.holds : EmitLoc → Bool
  | .lock | .lockLog _ | .unlockLog _ => false
  | _ => true

/-- No call of this emit has failed so far. -/
def EmitLoc.good : EmitLoc → Bool
  | .lock | .write _ _ | .unlock 0 => true
  | _ => false

/-- The thread holds `stdout_mutex`. -/
def TLoc.inEmit (l : TLoc β es F) : Prop := ∃ m e f, l = .emit m e f ∧ e.holds = true

theorem not_inEmit_enter (n : Next β es F) : ¬ n.enter.inEmit := by
  rintro ⟨m, e, f, h, he⟩
  cases n <;> simp only [Next.enter, reduceCtorEq, TLoc.emit.injEq] at h
  obtain ⟨-, rfl, -⟩ := h
  cases he

/-- Who is not emitting writes nothing. -/
theorem next_stdout (cl : Client T β es μ F) {l : TLoc β es F} (h : ∀ m e f, l ≠ .emit m e f) (t : T) (r : Ret Val)
    (x : Mem β μ) :
    ((runtime cl).next t l r x).2.stdout = x.stdout ∧ ¬ ((runtime cl).next t l r x).1.inEmit := by
  cases l with
  | absent | done c => exact ⟨rfl, fun ⟨_, _, _, e, _⟩ => nomatch e⟩
  | log l f | queue l f =>
    simp only [runtime, TLoc.next]
    split
    · exact ⟨rfl, fun ⟨_, _, _, e, _⟩ => nomatch e⟩
    · exact ⟨rfl, not_inEmit_enter _⟩
  | emit m e f => exact absurd rfl (h m e f)
  | own f => exact ⟨rfl, not_inEmit_enter _⟩

theorem send_cons {o o' : Stdout} {cs : List Bytes} {e : EmitLoc} (h : EmitLoc.send o cs = (e, o')) :
    (cs = [] ∧ e = .unlock 0 ∧ o' = { o with sent := o.sent + 1 }) ∨
    (∃ c cs', cs = c :: cs' ∧ e = .write c cs' ∧ o' = o) := by
  cases cs with
  | nil => cases h; exact .inl ⟨rfl, rfl, rfl⟩
  | cons c cs' => cases h; exact .inr ⟨c, cs', rfl, rfl, rfl⟩

theorem send_holds (o : Stdout) (cs : List Bytes) : (EmitLoc.send o cs).1.holds = true := by
  cases cs <;> rfl

/-- Inside the section an emit stays inside until its unlock. -/
theorem emit_next_inside (m : Msg) (o : Stdout) {e : EmitLoc} (h : e.holds = true) (hu : ∀ r, e ≠ .unlock r)
    (r : Ret Val) : ∃ e' o', e.next m o r = (.inl e', o') ∧ e'.holds = true := by
  cases e with
  | write c cs =>
    rcases r with _ | _ | _ | v
    · exact ⟨_, _, rfl, rfl⟩
    · exact ⟨_, _, rfl, rfl⟩
    · exact ⟨_, _, rfl, rfl⟩
    · cases v with
      | count k =>
        simp only [EmitLoc.next]
        split
        · exact ⟨_, _, rfl, send_holds _ _⟩
        · exact ⟨_, _, rfl, rfl⟩
      | _ => exact ⟨_, _, rfl, rfl⟩
  | writeLog l =>
    refine ⟨_, _, rfl, ?_⟩
    split <;> rfl
  | unlock r => exact absurd rfl (hu r)
  | _ => cases h

/-- Outside the section an emit enters it by its lock only. -/
theorem emit_next_outside (m : Msg) (o : Stdout) {e : EmitLoc} (h : e.holds = false) {r : Ret Val}
    (hr : e = .lock → r ≠ .ok) :
    (e.next m o r).2 = o ∧ ∀ e', (e.next m o r).1 = .inl e' → e'.holds = false := by
  cases e with
  | lock =>
    cases r with
    | ok => exact absurd rfl (hr rfl)
    | _ => exact ⟨rfl, fun e' he => by cases he; rfl⟩
  | lockLog l =>
    refine ⟨rfl, fun e' he => ?_⟩
    simp only [EmitLoc.next] at he
    cases hn : l.next r <;> rw [hn] at he <;> cases he
    rfl
  | unlockLog l =>
    refine ⟨rfl, fun e' he => ?_⟩
    simp only [EmitLoc.next] at he
    cases hn : l.next r <;> rw [hn] at he <;> cases he
    rfl
  | _ => cases h

/-- The mutex calls on `stdout_mutex` are those of the emits. -/
theorem emit_of_call {cl : Client T β es μ F} {l : TLoc β es F}
    (h : (runtime cl).call l = .mtxLock .stdout ∨ (runtime cl).call l = .mtxUnlock .stdout) :
    ∃ m e f, l = .emit m e f ∧ ((runtime cl).call l = .mtxLock .stdout ∧ e = .lock ∨
      (runtime cl).call l = .mtxUnlock .stdout ∧ ∃ r, e = .unlock r) := by
  cases l with
  | emit m e f =>
    refine ⟨m, e, f, rfl, ?_⟩
    cases e with
    | lock => exact .inl ⟨rfl, rfl⟩
    | unlock r => exact .inr ⟨rfl, r, rfl⟩
    | _ => rcases h with h | h <;> cases h
  | queue q f =>
    have hq : q.prim.call (T := T) (E := Sys) = .mtxLock .stdout ∨ q.prim.call (T := T) (E := Sys) = .mtxUnlock .stdout := h
    cases hp : q.prim <;> rw [hp] at hq <;> rcases hq with hq | hq <;> cases hq
  | own f =>
    have hc : (cl.call f).call = .mtxLock .stdout ∨ (cl.call f).call = .mtxUnlock .stdout := h
    cases hp : cl.call f <;> rw [hp] at hc <;> rcases hc with hc | hc <;> cases hc
  | _ => rcases h with h | h <;> cases h

/-- **The emits are critical sections of `stdout_mutex`.** -/
theorem runtime_guarded_stdout (cl : Client T β es μ F) : Guarded (runtime cl) Mtx.stdout TLoc.inEmit where
  lock {l} h := by
    obtain ⟨m, e, f, rfl, ⟨-, rfl⟩ | ⟨hu, -⟩⟩ := emit_of_call (.inl h)
    · rintro ⟨_, _, _, e, he⟩
      cases e
      cases he
    · rw [h] at hu
      cases hu
  unlock {l} h := by
    obtain ⟨m, e, f, rfl, ⟨hu, -⟩ | ⟨-, r, rfl⟩⟩ := emit_of_call (.inr h)
    · rw [h] at hu
      cases hu
    · exact ⟨m, _, f, rfl, rfl⟩
  wait {l c m} h := by
    cases l with
    | queue q f =>
      have hq : q.prim.call (T := T) (E := Sys) = .cndWait c m := h
      cases hp : q.prim <;> rw [hp] at hq <;> cases hq
      exact iff_of_false (fun ⟨_, _, _, e, _⟩ => nomatch e) nofun
    | emit m e f => cases e <;> cases h
    | own f =>
      have hc : (cl.call f).call = .cndWait c m := h
      cases hp : cl.call f <;> rw [hp] at hc <;> cases hc
    | _ => cases h
  absent {l} h := by
    rintro ⟨m, e, f, rfl, he⟩
    cases e <;> cases h
  locked {l} t x h := by
    obtain ⟨m, e, f, rfl, ⟨-, rfl⟩ | ⟨hu, -⟩⟩ := emit_of_call (.inl h)
    · exact ⟨m, _, f, rfl, rfl⟩
    · rw [h] at hu
      cases hu
  unlocked {l} t x h := by
    obtain ⟨m, e, f, rfl, ⟨hu, -⟩ | ⟨-, r, rfl⟩⟩ := emit_of_call (.inr h)
    · rw [h] at hu
      cases hu
    · exact not_inEmit_enter _
  keep {l} t r x hl hu _ := by
    by_cases hem : ∀ m e f, l ≠ .emit m e f
    · exact iff_of_false (next_stdout cl hem t r x).2 fun ⟨m, e, f, h, _⟩ => hem m e f h
    · simp only [ne_eq, not_forall, not_not] at hem
      obtain ⟨m, e, f, rfl⟩ := hem
      cases he : e.holds with
      | true =>
        obtain ⟨e', o', hn, he'⟩ := emit_next_inside m x.stdout he (fun r h => hu (by rw [h]; rfl)) r
        simp only [runtime, TLoc.next, hn]
        exact ⟨fun _ => ⟨m, e, f, rfl, he⟩, fun _ => ⟨m, e', f, rfl, he'⟩⟩
      | false =>
        have hn := emit_next_outside m x.stdout he (r := r) fun h => absurd (by rw [h]; rfl) hl
        refine iff_of_false ?_ fun ⟨_, _, _, h, h'⟩ => by cases h; rw [he] at h'; cases h'
        simp only [runtime, TLoc.next]
        split
        · rename_i e' o' heq
          rintro ⟨_, _, _, h, h'⟩
          cases h
          rw [hn.2 e' (by rw [heq])] at h'
          cases h'
        · exact not_inEmit_enter _
  entry t := not_inEmit_enter _

/-- No failing call leads into an emit's section, and nobody waits there. -/
theorem runtime_enclosed_stdout (cl : Client T β es μ F) : Enclosed (runtime cl) Mtx.stdout TLoc.inEmit where
  toGuarded := runtime_guarded_stdout cl
  noWait l c h := by
    obtain ⟨m, e, f, rfl, -⟩ := ((runtime_guarded_stdout cl).wait h).mpr rfl
    cases e <;> cases h
  enter {l} t r x h := by
    by_cases hem : ∀ m e f, l ≠ .emit m e f
    · exact absurd h (next_stdout cl hem t r x).2
    · simp only [ne_eq, not_forall, not_not] at hem
      obtain ⟨m, e, f, rfl⟩ := hem
      cases he : e.holds with
      | true => exact .inl ⟨m, e, f, rfl, he⟩
      | false =>
        by_cases hr : e = .lock ∧ r = .ok
        · obtain ⟨rfl, rfl⟩ := hr
          exact .inr ⟨rfl, rfl⟩
        · have hn := emit_next_outside m x.stdout he (r := r) fun h h' => hr ⟨h, h'⟩
          exfalso
          simp only [runtime, TLoc.next] at h
          split at h
          · rename_i e' o' heq
            obtain ⟨_, _, _, h, h'⟩ := h
            cases h
            rw [hn.2 e' (by rw [heq])] at h'
            cases h'
          · exact not_inEmit_enter _ h

/-! ## Framing -/

/-- The bytes of the messages written. -/
def wires (log : List (T × Msg)) : Bytes := log.flatMap fun x => x.2.wire

@[simp] theorem wires_append (log log' : List (T × Msg)) : wires (log ++ log') = wires log ++ wires log' := by
  simp [wires]

@[simp] theorem wires_singleton (t : T) (m : Msg) : wires [(t, m)] = m.wire := by simp [wires]

/-- What a thread inside has written of its message, after the bytes `done`. -/
def EmitLoc.Part (m : Msg) (out done : Bytes) : EmitLoc → Prop
  | .write c cs => ∃ p, out = done ++ p ∧ p ++ (c ++ cs.flatten) = m.wire
  | _ => out = done

/-- The message whose last byte is written in this step, with its thread. -/
def committed (s : PState T β es μ F) : Act T Val → Option (T × Msg)
  | .ret t (.val (.count k)) =>
    match s.loc t with
    | .emit m (.write c []) _ => if c.length ≤ k then some (t, m) else none
    | _ => none
  | _ => none

/-- The message of which a part is out when its write fails in this step. -/
def tears (s : PState T β es μ F) : Act T Val → Option Msg
  | .ret t .fail =>
    match s.loc t with
    | .emit m (.write c cs) _ => if c.length + cs.flatten.length < m.wire.length then some m else none
    | _ => none
  | _ => none

/-- A write of an emit fails, or returns how many bytes it has written. -/
def writesOk (s : PState T β es μ F) : Act T Val → Bool
  | .ret t r =>
    match s.loc t, r with
    | .emit _ (.write c _) _, .val (.count k) => k ≤ c.length
    | .emit _ (.write _ _) _, .fail => true
    | .emit _ (.write _ _) _, _ => false
    | _, _ => true
  | _ => true

/-- **The output is the messages of `log`, and a part of one more while a thread is inside.** -/
structure Untorn (s : PState T β es μ F) (log : List (T × Msg)) : Prop where
  quiet : (∀ t, ¬ (s.loc t).inEmit) → s.mem.stdout.out = wires log
  held : ∀ t m e f, s.loc t = .emit m e f → e.holds = true → e.Part m s.mem.stdout.out (wires log)

variable {cl : Client T β es μ F} {s s' : PState T β es μ F} {t : T} {log : List (T × Msg)}

theorem enter_emit {n : Next β es F} {m : Msg} {e : EmitLoc} {f : F} (h : n.enter = .emit m e f) : e = .lock := by
  cases n <;> simp only [Next.enter, reduceCtorEq, TLoc.emit.injEq] at h
  exact h.2.1.symm

/-- Code outside the emits starts an emit at its lock. -/
theorem next_emit (cl : Client T β es μ F) {l : TLoc β es F} (h : ∀ m e f, l ≠ .emit m e f) (t : T) (r : Ret Val)
    (x : Mem β μ) {m : Msg} {e : EmitLoc} {f : F} (hn : ((runtime cl).next t l r x).1 = .emit m e f) : e = .lock := by
  cases l with
  | absent | done c => cases hn
  | log l f =>
    simp only [runtime, TLoc.next] at hn
    split at hn
    · cases hn
    · exact enter_emit hn
  | queue l f =>
    simp only [runtime, TLoc.next] at hn
    split at hn
    · cases hn
    · exact enter_emit hn
  | emit m e f => exact absurd rfl (h m e f)
  | own f => exact enter_emit hn

/-- Only the last write of a message commits it. -/
theorem committed_returns {a : Act T Val} {r : Ret Val} (ha : a.returns t r)
    (h : ∀ m c f k, s.loc t = .emit m (.write c []) f → r = .val (.count k) → ¬ c.length ≤ k) : committed s a = none := by
  rcases ha with rfl | ⟨-, u, rfl⟩ | ⟨k, -, rfl⟩
  · unfold committed
    split
    · rename_i heq
      cases heq
      split
      · rename_i hl
        rw [if_neg (h _ _ _ _ hl rfl)]
      · rfl
    · rfl
  · rfl
  · rfl

theorem committed_of_no_return {a : Act T Val} (h : ∀ t r, a ≠ .ret t r) : committed s a = none := by
  unfold committed
  split
  · exact absurd rfl (h _ _)
  · rfl

theorem committed_ok {a : Act T Val} (h : a.returns t .ok) : committed s a = none :=
  committed_returns h fun _ _ _ _ _ => nofun

/-- A part of a chunk commits nothing. -/
theorem committed_short {m : Msg} {c : Bytes} {cs : List Bytes} {f : F} (hl : s.loc t = .emit m (.write c cs) f) {k : Nat}
    (hc : ¬ c.length ≤ k) : committed s (.ret t (.val (.count k))) = none :=
  committed_returns (.inl rfl) fun m' c' f' k' hl' hk => by
    rw [hl] at hl'
    cases hl'
    cases hk
    exact hc

/-- A message that is committed is one of the moving thread. -/
theorem committed_thread {a : Act T Val} {r : Ret Val} (ha : a.returns t r) {x : T × Msg} (h : committed s a = some x) :
    x.1 = t := by
  unfold committed at h
  split at h
  · split at h
    · split at h
      · cases h
        rcases ha with ha | ⟨-, u, ha⟩ | ⟨k, -, ha⟩ <;> cases ha
        rfl
      · cases h
    · cases h
  · cases h

/-- No thread goes in or out, none that is inside moves, and nothing is written. -/
theorem Untorn.same (h : Untorn s log)
    (hl : ∀ u, s'.loc u = s.loc u ∨ (¬ (s.loc u).inEmit ∧ ¬ (s'.loc u).inEmit))
    (hm : s'.mem.stdout.out = s.mem.stdout.out) : Untorn s' log where
  quiet hq := by
    rw [hm]
    refine h.quiet fun u => ?_
    rcases hl u with hu | ⟨hu, -⟩
    · rw [← hu]
      exact hq u
    · exact hu
  held u m e f hu he := by
    rw [hm]
    rcases hl u with hu' | ⟨-, hu'⟩
    · rw [hu'] at hu
      exact h.held u m e f hu he
    · exact absurd ⟨m, e, f, hu, he⟩ hu'

/-- The one thread that is inside moves, or one goes in when there is none. -/
theorem Untorn.alone [DecidableEq T] {l : TLoc β es F} (hl : s'.loc = Function.update s.loc t l)
    (hO : ∀ u, u ≠ t → ¬ (s.loc u).inEmit) (hq : ¬ l.inEmit → s'.mem.stdout.out = wires log)
    (hh : ∀ m e f, l = .emit m e f → e.holds = true → e.Part m s'.mem.stdout.out (wires log)) : Untorn s' log where
  quiet hn := hq (by simpa [hl] using hn t)
  held u m e f hu he := by
    rw [hl] at hu
    by_cases hut : u = t
    · subst hut
      rw [Function.update_self] at hu
      exact hh m e f hu he
    · rw [Function.update_of_ne hut] at hu
      exact absurd ⟨m, e, f, hu, he⟩ (hO u hut)

/-- What is out once an emit has gone on, or has returned. -/
def Wrote (m : Msg) (done : Bytes) : (EmitLoc ⊕ Int) × Stdout → Prop
  | (.inl e, o) => e.Part m o.out done
  | (.inr _, o) => o.out = done

theorem part_of_not_holds {m : Msg} {e : EmitLoc} {out done : Bytes} (he : e.holds = false) :
    e.Part m out done ↔ out = done := by
  cases e <;> first | exact Iff.rfl | cases he

/-- **What an emit has written**, once its call has returned without a tear. -/
theorem part_next {m : Msg} {e : EmitLoc} {f : F} (hl : s.loc t = .emit m e f) {done : Bytes}
    (hp : e.Part m s.mem.stdout.out done) {a : Act T Val} {r : Ret Val} (ha : a.returns t r)
    (hx : ∀ c cs, e = .write c cs → a = .ret t r) (hw : writesOk s a = true) (ht : tears s a = none) :
    Wrote m (done ++ wires (committed s a).toList) (e.next m s.mem.stdout r) := by
  have hnone : (∀ c cs, e ≠ .write c cs) → done ++ wires (committed s a).toList = done := fun h => by
    rw [committed_returns ha fun m' c f' k hl' => by rw [hl] at hl'; cases hl'; exact absurd rfl (h _ _)]
    simp [wires]
  cases e with
  | lock =>
    rw [hnone fun _ _ he => by cases he]
    cases r with
    | ok =>
      refine ⟨[], hp.trans (List.append_nil _).symm, ?_⟩
      simpa [sendChunks] using flatten_sendChunks m
    | _ => exact hp
  | lockLog l | unlockLog l =>
    rw [hnone fun _ _ he => by cases he]
    simp only [EmitLoc.next]
    cases l.next r <;> exact hp
  | writeLog l =>
    rw [hnone fun _ _ he => by cases he]
    simp only [EmitLoc.next]
    cases l.next r <;> exact hp
  | unlock res =>
    rw [hnone fun _ _ he => by cases he]
    cases r <;> exact hp
  | write c cs =>
    obtain rfl := hx c cs rfl
    obtain ⟨p, hout, hwire⟩ := hp
    rcases r with _ | _ | _ | v
    · simp [writesOk, hl] at hw
    · -- nothing of the message is out
      have hp0 : p = [] := by
        have hlen := congrArg List.length hwire
        simp only [List.length_append] at hlen
        simp only [tears, hl, ite_eq_right_iff, reduceCtorEq, imp_false, not_lt] at ht
        exact List.length_eq_zero_iff.mp (by omega)
      subst hp0
      have hc : committed s (.ret t .fail) = none := rfl
      rw [hc]
      have hd : done ++ wires (Option.toList (none : Option (T × Msg))) = done := by simp [wires]
      rw [hd]
      exact hout.trans (List.append_nil _)
    · simp [writesOk, hl] at hw
    · cases v with
      | count k =>
        by_cases hck : c.length ≤ k
        · cases cs with
          | nil =>
            have hc : committed s (.ret t (.val (.count k))) = some (t, m) := by simp [committed, hl, hck]
            rw [hc]
            simp only [EmitLoc.next, hck, if_true, EmitLoc.send, Wrote, Prod.map_apply, id_eq, EmitLoc.Part,
              Option.toList_some, wires_singleton, ← hwire, hout, List.flatten_nil, List.append_nil]
            exact List.append_assoc _ _ _
          | cons c' cs' =>
            have hc : committed s (.ret t (.val (.count k))) = none := by simp [committed, hl]
            rw [hc]
            simp only [EmitLoc.next, hck, if_true, EmitLoc.send, Wrote, Prod.map_apply, id_eq, EmitLoc.Part,
              Option.toList_none, wires, List.flatMap_nil, List.append_nil, hout, List.append_assoc]
            refine ⟨p ++ c, rfl, ?_⟩
            rw [← hwire]
            simp
        · rw [committed_short hl hck]
          simp only [EmitLoc.next, hck, if_false, Wrote, EmitLoc.Part, Option.toList_none, wires,
            List.flatMap_nil, List.append_nil, hout, List.append_assoc]
          refine ⟨p ++ c.take k, rfl, ?_⟩
          rw [← hwire, List.append_assoc, ← List.append_assoc (c.take k), List.take_append_drop]
      | _ => simp [writesOk, hl] at hw

/-- Where a thread of an emit goes, and what is in `stdout` then. -/
theorem next_of_emit (cl : Client T β es μ F) (m : Msg) (e : EmitLoc) (f : F) (t : T) (r : Ret Val) (x : Mem β μ) :
    ((runtime cl).next t (.emit m e f) r x).2.stdout = (e.next m x.stdout r).2 ∧
      ∀ m' e' f', ((runtime cl).next t (.emit m e f) r x).1 = .emit m' e' f' →
        (m' = m ∧ (e.next m x.stdout r).1 = .inl e') ∨ e' = .lock := by
  simp only [runtime, TLoc.next]
  split
  · rename_i e' o' heq
    rw [heq]
    refine ⟨rfl, fun m1 e1 f1 h => ?_⟩
    cases h
    exact .inl ⟨rfl, rfl⟩
  · rename_i c o' heq
    rw [heq]
    exact ⟨rfl, fun m1 e1 f1 h => .inr (enter_emit h)⟩

/-- **Every step that tears no message keeps the messages whole**, and adds the one it commits. -/
theorem Untorn.step [DecidableEq T] (h : Untorn s log) (hO : Owned .stdout TLoc.inEmit s) (hO' : Owned .stdout TLoc.inEmit s')
    {a : Act T Val} (hs : Trans (runtime cl) s a s') (hw : writesOk s a = true) (ht : tears s a = none) :
    Untorn s' (log ++ (committed s a).toList) := by
  cases hs.move with
  | stay ha hl hm =>
    rw [committed_of_no_return ha, Option.toList_none, List.append_nil]
    exact h.same (fun u => .inl (by rw [hl])) (by rw [hm])
  | create t u ha hc hu hl hm =>
    have hne : ∀ m e f, s.loc t ≠ .emit m e f := fun m e f he => by
      rw [he] at hc
      cases e <;> cases hc
    obtain ⟨hout, hin⟩ := next_stdout cl hne t .ok s.mem
    rw [committed_ok (.inl ha), Option.toList_none, List.append_nil]
    refine h.same (fun v => ?_) (by rw [hm, hout])
    rw [hl]
    by_cases hvt : v = t
    · subst hvt
      rw [Function.update_self]
      exact .inr ⟨fun ⟨m, e, f, he, _⟩ => hne m e f he, hin⟩
    · rw [Function.update_of_ne hvt]
      by_cases hvu : v = u
      · subst hvu
        rw [Function.update_self]
        exact .inr ⟨(runtime_guarded_stdout cl).absent hu, not_inEmit_enter _⟩
      · rw [Function.update_of_ne hvu]
        exact .inl rfl
  | call t r hr ha hx hl hm =>
    by_cases hem : ∀ m e f, s.loc t ≠ .emit m e f
    · obtain ⟨hout, hin⟩ := next_stdout cl hem t r s.mem
      rw [committed_returns ha fun m c f _ he => absurd he (hem m _ f), Option.toList_none, List.append_nil]
      refine h.same (fun v => ?_) (by rw [hm, hout])
      rw [hl]
      by_cases hvt : v = t
      · subst hvt
        rw [Function.update_self]
        exact .inr ⟨fun ⟨m, e, f, he, _⟩ => hem m e f he, hin⟩
      · rw [Function.update_of_ne hvt]
        exact .inl rfl
    · simp only [ne_eq, not_forall, not_not] at hem
      obtain ⟨m, e, f, he⟩ := hem
      obtain ⟨hout, hgo⟩ := next_of_emit cl m e f t r s.mem
      rw [he] at hl hm
      by_cases hin : (s.loc t).inEmit ∨ (s'.loc t).inEmit
      · -- the thread is alone inside, before or after
        have hO1 : ∀ u, u ≠ t → ¬ (s.loc u).inEmit := fun u hut hu => by
          rcases hin with hin | hin
          · exact hut (hO.alone hu hin)
          · refine hut (hO'.alone ?_ hin)
            rwa [hl, Function.update_of_ne hut]
        have hpart : e.Part m s.mem.stdout.out (wires log) := by
          cases heh : e.holds with
          | true => exact h.held t m e f he heh
          | false =>
            refine (part_of_not_holds heh).mpr (h.quiet fun u => ?_)
            by_cases hut : u = t
            · subst hut
              rintro ⟨m', e', f', he', heh'⟩
              rw [he] at he'
              cases he'
              rw [heh] at heh'
              cases heh'
            · exact hO1 u hut
        have hnext := part_next he hpart ha (fun c cs hec => hx (.write stdoutFileno c) (by rw [he, hec]; rfl)) hw ht
        rw [← wires_append] at hnext
        refine Untorn.alone hl hO1 (fun hq => ?_) fun m' e' f' hl' he' => ?_
        · rw [hm, hout]
          simp only [runtime, TLoc.next] at hq
          split at hq
          · rename_i e' o' heq
            rw [heq] at hnext ⊢
            refine (part_of_not_holds ?_).mp hnext
            exact Bool.eq_false_iff.mpr fun h' => hq ⟨m, e', f, rfl, h'⟩
          · rename_i c o' heq
            rw [heq] at hnext ⊢
            exact hnext
        · rw [hm, hout]
          rcases hgo m' e' f' hl' with ⟨rfl, hn⟩ | rfl
          · rw [← Prod.mk.eta (p := e.next m' s.mem.stdout r), hn] at hnext
            exact hnext
          · cases he'
      · -- nobody goes in or out
        rw [not_or] at hin
        have heh : e.holds = false := Bool.eq_false_iff.mpr fun h' => hin.1 ⟨m, e, f, he, h'⟩
        have hlr : e = .lock → r ≠ .ok := by
          rintro rfl rfl
          refine hin.2 ?_
          rw [hl, Function.update_self]
          exact ⟨m, _, f, rfl, rfl⟩
        have hc : committed s a = none := committed_returns ha fun m' c f' _ he' => by
          rw [he] at he'
          cases he'
          cases heh
        rw [hc, Option.toList_none, List.append_nil]
        refine h.same (fun v => ?_) (by rw [hm, hout, (emit_next_outside m s.mem.stdout heh hlr).1])
        by_cases hvt : v = t
        · subst hvt
          exact .inr hin
        · rw [hl, Function.update_of_ne hvt]
          exact .inl rfl

/-! ### When no call fails -/

/-- **The output is the messages of `log`, and a part of one more while a thread is inside**; no emit has failed, and
the messages are counted. -/
structure Framed (s : PState T β es μ F) (log : List (T × Msg)) : Prop where
  good : ∀ t m e f, s.loc t = .emit m e f → e.good = true
  sent : s.mem.stdout.sent = log.length
  free : s.owner .stdout = none → s.mem.stdout.out = wires log
  held : ∀ t m e f, s.owner .stdout = some t → s.loc t = .emit m e f → e.Part m s.mem.stdout.out (wires log)

/-- No call fails, and a write returns how many bytes it has written. -/
def emitsOk (cl : Client T β es μ F) (s : PState T β es μ F) (a : Act T Val) : Bool :=
  a.ok && match a with
    | .ret t r =>
      match (runtime cl).call (s.loc t), r with
      | .ext (.write _ c), .val (.count k) => k ≤ c.length
      | .ext (.write _ _), _ => false
      | _, _ => true
    | _ => true

theorem Framed.untorn (h : Framed s log) (hM : Mutual .stdout TLoc.inEmit s) (hO : Owned .stdout TLoc.inEmit s) :
    Untorn s log where
  quiet hq := by
    refine h.free ?_
    by_contra hne
    obtain ⟨t, ht⟩ := Option.ne_none_iff_exists'.mp hne
    exact hq t ((hM t).mp ht).1
  held t m e f hl he := h.held t m e f (hO t ⟨m, e, f, hl, he⟩) hl

theorem Untorn.framed (h : Untorn s log) (hM : Mutual .stdout TLoc.inEmit s) (hO : Owned .stdout TLoc.inEmit s)
    (hg : ∀ t m e f, s.loc t = .emit m e f → e.good = true) (hs : s.mem.stdout.sent = log.length) : Framed s log where
  good := hg
  sent := hs
  free hn := h.quiet fun t ht => by
    have := hO t ht
    rw [hn] at this
    cases this
  held t m e f ho hl := by
    obtain ⟨⟨m', e', f', hl', he'⟩, -⟩ := (hM t).mp ho
    rw [hl] at hl'
    cases hl'
    exact h.held t m e f hl he'

theorem writesOk_of_emitsOk {a : Act T Val} (h : emitsOk cl s a = true) : writesOk s a = true := by
  simp only [emitsOk, Bool.and_eq_true] at h
  unfold writesOk
  split
  · rename_i t r
    split
    · rename_i m c cs f k hl
      have hcall : (runtime cl).call (s.loc t) = .ext (.write stdoutFileno c) := by rw [hl]; rfl
      simpa [hcall] using h.2
    · rfl
    · rename_i m c cs f hl hk _
      have hcall : (runtime cl).call (s.loc t) = .ext (.write stdoutFileno c) := by rw [hl]; rfl
      simp only [hcall] at h
      exact absurd h.2 nofun
    · rfl
  · rfl

theorem tears_of_ok {a : Act T Val} (h : a.ok = true) : tears s a = none := by
  unfold tears
  split
  · cases h
  · rfl

/-- An emit none of whose calls fails goes on like that, and counts its message when it commits it. -/
theorem good_next {m : Msg} {e : EmitLoc} {f : F} (hl : s.loc t = .emit m e f) (hg : e.good = true) {a : Act T Val}
    {r : Ret Val} (hr : (runtime cl).Answers s t r) (ha : a.returns t r)
    (hx : ∀ c cs, e = .write c cs → a = .ret t r) (hok : a.ok = true) (hw : writesOk s a = true) :
    (∀ e', (e.next m s.mem.stdout r).1 = .inl e' → e'.good = true) ∧
      (e.next m s.mem.stdout r).2.sent = s.mem.stdout.sent + (committed s a).toList.length := by
  have hnf : r ≠ .fail := ha.ne_fail hok
  simp only [Code.Answers, hl] at hr
  cases e with
  | lock =>
    obtain rfl := hr.resolve_right hnf
    rw [committed_ok ha]
    exact ⟨fun e' he => by cases he; rfl, rfl⟩
  | unlock res =>
    obtain rfl := hr.resolve_right hnf
    rw [committed_ok ha]
    exact ⟨fun e' he => (by cases he), rfl⟩
  | write c cs =>
    obtain rfl := hx c cs rfl
    rcases r with _ | _ | _ | v
    · simp [writesOk, hl] at hw
    · exact absurd rfl hnf
    · simp [writesOk, hl] at hw
    · cases v with
      | count k =>
        by_cases hck : c.length ≤ k
        · cases cs with
          | nil => simp [EmitLoc.next, hck, EmitLoc.send, committed, hl, EmitLoc.good]
          | cons c' cs' => simp [EmitLoc.next, hck, EmitLoc.send, committed, hl, EmitLoc.good]
        · rw [committed_short hl hck]
          simp [EmitLoc.next, hck, EmitLoc.good]
      | _ => simp [writesOk, hl] at hw
  | _ => cases hg

/-- **Every step in which no call fails keeps the output framed**, and adds the message it commits. -/
theorem Framed.step [DecidableEq T] (h : Framed s log) (hW : Waits (runtime cl) s) (hM : Mutual .stdout TLoc.inEmit s)
    {a : Act T Val} (hs : Trans (runtime cl) s a s') (hok : emitsOk cl s a = true) :
    Framed s' (log ++ (committed s a).toList) := by
  have hE := runtime_enclosed_stdout cl
  have hw := writesOk_of_emitsOk hok
  simp only [emitsOk, Bool.and_eq_true] at hok
  have hM' := hE.mutual hW hM hs (Code.syncOk_of_ok _ _ hok.1)
  have hO := hM.owned hE hW
  have hO' := hM'.owned hE (hW.step hs)
  have hgs : (∀ u m e f, s'.loc u = .emit m e f → e.good = true) ∧
      s'.mem.stdout.sent = (log ++ (committed s a).toList).length := by
    cases hs.move with
    | stay ha hl hm =>
      rw [hl, hm, committed_of_no_return ha]
      exact ⟨h.good, by simpa using h.sent⟩
    | create t u ha hc hu hl hm =>
      have hne : ∀ m e f, s.loc t ≠ .emit m e f := fun m e f he => by
        rw [he] at hc
        cases e <;> cases hc
      rw [hl, hm, committed_ok (.inl ha), (next_stdout cl hne t .ok s.mem).1]
      refine ⟨fun v m e f hv => ?_, by simpa using h.sent⟩
      by_cases hvt : v = t
      · subst hvt
        rw [Function.update_self] at hv
        rw [next_emit cl hne v .ok s.mem hv]
        rfl
      · rw [Function.update_of_ne hvt] at hv
        by_cases hvu : v = u
        · subst hvu
          rw [Function.update_self] at hv
          rw [enter_emit hv]
          rfl
        · rw [Function.update_of_ne hvu] at hv
          exact h.good v m e f hv
    | call t r hr ha hx hl hm =>
      by_cases hem : ∀ m e f, s.loc t ≠ .emit m e f
      · rw [hl, hm, committed_returns ha fun m c f _ he => absurd he (hem m _ f), (next_stdout cl hem t r s.mem).1]
        refine ⟨fun v m e f hv => ?_, by simpa using h.sent⟩
        by_cases hvt : v = t
        · subst hvt
          rw [Function.update_self] at hv
          rw [next_emit cl hem v r s.mem hv]
          rfl
        · rw [Function.update_of_ne hvt] at hv
          exact h.good v m e f hv
      · simp only [ne_eq, not_forall, not_not] at hem
        obtain ⟨m, e, f, he⟩ := hem
        obtain ⟨hout, hgo⟩ := next_of_emit cl m e f t r s.mem
        obtain ⟨hg, hsent⟩ := good_next he (h.good t m e f he) hr ha
          (fun c cs hec => hx (.write stdoutFileno c) (by rw [he, hec]; rfl)) hok.1 hw
        rw [hl, hm, he, hout, hsent, h.sent, List.length_append]
        refine ⟨fun v m' e' f' hv => ?_, rfl⟩
        by_cases hvt : v = t
        · subst hvt
          rw [Function.update_self] at hv
          rcases hgo m' e' f' hv with ⟨-, hn⟩ | rfl
          · exact hg e' hn
          · rfl
        · rw [Function.update_of_ne hvt] at hv
          exact h.good v m' e' f' hv
  exact ((h.untorn hM hO).step hO hO' hs hw (tears_of_ok hok.1)).framed hM' hO' hgs.1 hgs.2

end MrLib
