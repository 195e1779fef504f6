import MrLib.Process.Output
import MrLib.Protocol.TornEmit

/-!
# What a process puts out when calls fail

Any call may fail here but the locks and the writes of an emit (`EmitsGoOn`), and the user's functions may do what they like.
`ProcessCode.emitting` is the process together with the messages that its threads have passed to the emits. Each message
goes through its emit to the standard output, so when the threads have ended the standard output holds these messages,
each once and whole (`all_put_out`).
-/

namespace MrLib

open Conc

/-! ## Messages in an emit -/

section Runtime

variable {T β μ F : Type} {es : Nat} {cl : Client T β es μ F} {s s' : PState T β es μ F} {a : Act T Val} {t : T}
  {log asked : List (T × Msg)}

/-- The message of an emit that has not written it all. -/
def TLoc.unsent : TLoc β es F → List Msg
  | .emit m .lock _ | .emit m (.write _ _) _ => [m]
  | _ => []

/-- `t` has come to the first call of an emit of this message. -/
def started (t : T) (s : PState T β es μ F) : List (T × Msg) :=
  match s.loc t with
  | .emit m .lock _ => [(t, m)]
  | _ => []

/-- The message that is passed to an emit in the step that has led to `s`. -/
def begun (a : Act T Val) (s : PState T β es μ F) : List (T × Msg) :=
  match a with
  | .ret t _ | .wake t _ => started t s
  | _ => []

/-- There is still something to write. -/
def EmitLoc.sends : EmitLoc → Bool
  | .lock | .write _ _ => true
  | _ => false

/-- The message is not given up. -/
def EmitLoc.intact : EmitLoc → Bool
  | .lockLog _ | .writeLog _ => false
  | _ => true

/-- No `mtx_lock` and no `write` of an emit fails in this step. -/
def EmitsGoOn (s : PState T β es μ F) (a : Act T Val) : Prop :=
  ∀ t m e f, a = .ret t .fail → s.loc t = .emit m e f → e.sends = false

theorem begun_returns {r : Ret Val} (ha : a.returns t r) (s : PState T β es μ F) : begun a s = started t s := by
  rcases ha with rfl | ⟨-, u, rfl⟩ | ⟨k, -, rfl⟩ <;> rfl

theorem not_started (h : ∀ m f, s.loc t ≠ .emit m .lock f) : started t s = [] := by
  unfold started
  split
  · rename_i m f hl
    exact absurd hl (h m f)
  · rfl

variable [DecidableEq T]

/-- **Of the messages passed to the emits** a thread has written all but the one that it is writing. -/
structure Asked (s : PState T β es μ F) (log asked : List (T × Msg)) : Prop where
  intact : ∀ t m e f, s.loc t = .emit m e f → e.intact = true
  by_thread : ∀ t, pairsOf t asked = pairsOf t log ++ (s.loc t).unsent

theorem pairsOf_started (t u : T) (s : PState T β es μ F) (h : u ≠ t) : pairsOf u (started t s) = [] := by
  unfold started
  split
  · rw [pairsOf_singleton, if_neg h.symm]
  · rfl

/-- A thread that is in an emit has just come there. -/
theorem started_unsent (h : ∀ m e f, s.loc t = .emit m e f → e = .lock) : pairsOf t (started t s) = (s.loc t).unsent := by
  unfold started
  cases hl : s.loc t with
  | emit m e f =>
    obtain rfl := h m e f hl
    simp [TLoc.unsent, pairsOf_singleton]
  | _ => rfl

/-- An emit that is not given up passes its message on when it has written the last byte. -/
theorem intact_emit {m : Msg} {e : EmitLoc} {f : F} (hl : s.loc t = .emit m e f) (hg : e.intact = true) {r : Ret Val}
    (hr : (runtime cl).Answers s t r) (ha : a.returns t r) (hx : ∀ c cs, e = .write c cs → a = .ret t r)
    (hf : e.sends = true → r ≠ .fail) (hw : writesOk s a = true) :
    (∃ e', (e.next m s.mem.stdout r).1 = .inl e' ∧ e' ≠ .lock ∧ e'.intact = true ∧
      (TLoc.emit m e f : TLoc β es F).unsent =
        pairsOf t (committed s a).toList ++ (TLoc.emit m e' f : TLoc β es F).unsent) ∨
      ∃ res, (e.next m s.mem.stdout r).1 = .inr res ∧ (TLoc.emit m e f : TLoc β es F).unsent = [] ∧
        committed s a = none := by
  have hnone : (∀ c, e ≠ .write c []) → committed s a = none := fun he =>
    committed_returns ha fun m' c f' k hl' => by
      rw [hl] at hl'
      cases hl'
      exact absurd rfl (he c)
  simp only [Code.Answers, hl] at hr
  cases e with
  | lock =>
    obtain rfl := hr.resolve_right (hf rfl)
    refine .inl ⟨_, rfl, by simp, rfl, ?_⟩
    rw [committed_ok ha]
    rfl
  | unlock res =>
    rcases hr with rfl | rfl
    · exact .inr ⟨res, rfl, rfl, committed_ok ha⟩
    · refine .inl ⟨.unlockLog .wait, rfl, by simp, rfl, ?_⟩
      rw [hnone (by simp)]
      rfl
  | unlockLog l =>
    cases hn : l.next r with
    | inl l' =>
      refine .inl ⟨.unlockLog l', by simp [EmitLoc.next, hn], by simp, rfl, ?_⟩
      rw [hnone (by simp)]
      rfl
    | inr c => exact .inr ⟨-1, by simp [EmitLoc.next, hn], rfl, hnone (by simp)⟩
  | write c cs =>
    obtain rfl := hx c cs rfl
    rcases r with _ | _ | _ | v
    · simp [writesOk, hl] at hw
    · exact absurd rfl (hf rfl)
    · simp [writesOk, hl] at hw
    · cases v with
      | count k =>
        by_cases hck : c.length ≤ k
        · cases cs with
          | nil =>
            refine .inl ⟨.unlock 0, by simp [EmitLoc.next, hck, EmitLoc.send], by simp, rfl, ?_⟩
            simp [committed, hl, hck, TLoc.unsent, pairsOf_singleton]
          | cons c' cs' =>
            refine .inl ⟨.write c' cs', by simp [EmitLoc.next, hck, EmitLoc.send], by simp, rfl, ?_⟩
            simp [committed, hl, TLoc.unsent, pairsOf]
        · refine .inl ⟨.write (c.drop k) cs, by simp [EmitLoc.next, hck], by simp, rfl, ?_⟩
          rw [committed_short hl hck]
          rfl
      | _ => simp [writesOk, hl] at hw
  | _ => cases hg

/-- **What a thread has done in a step** in which its call returns. -/
theorem unsent_next (hg : ∀ m e f, s.loc t = .emit m e f → e.intact = true) {r : Ret Val}
    (hr : ∀ m e f, s.loc t = .emit m e f → (runtime cl).Answers s t r) (ha : a.returns t r)
    (hx : (runtime cl).Direct s a t r) (hgo : EmitsGoOn s a) (hw : writesOk s a = true) (hl : s'.loc t = ((runtime cl).next t (s.loc t) r s.mem).1) :
    (∀ m e f, s'.loc t = .emit m e f → e.intact = true) ∧
      (s.loc t).unsent ++ pairsOf t (started t s') = pairsOf t (committed s a).toList ++ (s'.loc t).unsent := by
  -- where it comes to an emit, it comes to its first call
  have fresh : (∀ m e f, s'.loc t = .emit m e f → e = .lock) → (s.loc t).unsent = [] → committed s a = none →
      (∀ m e f, s'.loc t = .emit m e f → e.intact = true) ∧
        (s.loc t).unsent ++ pairsOf t (started t s') = pairsOf t (committed s a).toList ++ (s'.loc t).unsent := by
    intro hlock hu hc
    refine ⟨fun m e f he => by rw [hlock m e f he]; rfl, ?_⟩
    rw [hu, hc, started_unsent hlock]
    rfl
  by_cases hem : ∀ m e f, s.loc t ≠ .emit m e f
  · refine fresh (fun m e f he => ?_) ?_ (committed_returns ha fun m c f _ he => absurd he (hem m _ f))
    · rw [hl] at he
      exact next_emit cl hem t r s.mem he
    · cases hs : s.loc t with
      | emit m e f => exact absurd hs (hem m e f)
      | _ => rfl
  · simp only [ne_eq, not_forall, not_not] at hem
    obtain ⟨m, e, f, he⟩ := hem
    have hf : e.sends = true → r ≠ .fail := by
      rintro hs rfl
      rw [hgo t m e f ha.fail he] at hs
      cases hs
    have hdirect : ∀ c cs, e = .write c cs → a = .ret t r := fun c cs hec =>
      hx (.write stdoutFileno c) (by rw [he, hec]; rfl)
    rw [he] at hl
    simp only [runtime, TLoc.next] at hl
    rcases intact_emit he (hg m e f he) (hr m e f he) ha hdirect hf hw with ⟨e', hn, hne, hg', hu⟩ | ⟨res, hn, hu, hc⟩
    · have hl' : s'.loc t = .emit m e' f := by
        rw [hl]
        split
        · rename_i e1 o1 heq
          rw [heq] at hn
          cases hn
          rfl
        · rename_i c1 o1 heq
          rw [heq] at hn
          cases hn
      refine ⟨fun m1 e1 f1 h1 => ?_, ?_⟩
      · rw [hl'] at h1
        cases h1
        exact hg'
      · rw [not_started fun m1 f1 h1 => ?_, he, hl', hu]
        · exact List.append_nil _
        · rw [hl'] at h1
          cases h1
          exact hne rfl
    · refine fresh (fun m1 e1 f1 h1 => ?_) (by rw [he]; exact hu) hc
      rw [hl] at h1
      split at h1
      · rename_i e2 o2 heq
        rw [heq] at hn
        cases hn
      · exact enter_emit h1

/-- A thread that does not move. -/
theorem Asked.other (h : Asked s log asked) {r : Ret Val} (ha : a.returns t r) {u : T} (hu : u ≠ t)
    (hl : s'.loc u = s.loc u) : pairsOf u (asked ++ begun a s') =
      pairsOf u (log ++ (committed s a).toList) ++ (s'.loc u).unsent := by
  rw [pairsOf_append, pairsOf_append, begun_returns ha, pairsOf_started t u s' hu, pairsOf_others ha hu, hl,
    h.by_thread u]
  simp

/-- **Every step keeps track of the messages**, if no thread begins with an emit. -/
theorem Asked.step (h : Asked s log asked) (hs : Trans (runtime cl) s a s') (hgo : EmitsGoOn s a)
    (hw : writesOk s a = true) (hentry : ∀ u m e f, (runtime cl).entry u ≠ .emit m e f) :
    Asked s' (log ++ (committed s a).toList) (asked ++ begun a s') := by
  -- the thread `t` moves, and another one that comes to its first call has nothing to do with emits
  have moves : ∀ {t : T} {r : Ret Val}, (∀ m e f, s.loc t = .emit m e f → (runtime cl).Answers s t r) →
      a.returns t r → (runtime cl).Direct s a t r →
      s'.loc t = ((runtime cl).next t (s.loc t) r s.mem).1 →
      (∀ u, u ≠ t → s'.loc u = s.loc u ∨ (s.loc u).unsent = [] ∧ ∀ m e f, s'.loc u ≠ .emit m e f) →
      Asked s' (log ++ (committed s a).toList) (asked ++ begun a s') := by
    intro t r hr ha hx hl hothers
    obtain ⟨hg, hn⟩ := unsent_next (h.intact t) hr ha hx hgo hw hl
    refine ⟨fun u m e f hu => ?_, fun u => ?_⟩
    · by_cases hut : u = t
      · subst hut
        exact hg m e f hu
      · rcases hothers u hut with he | ⟨-, he⟩
        · exact h.intact u m e f (he ▸ hu)
        · exact absurd hu (he m e f)
    · by_cases hut : u = t
      · subst hut
        rw [pairsOf_append, pairsOf_append, begun_returns ha, h.by_thread u, List.append_assoc, hn, List.append_assoc]
      · rcases hothers u hut with he | ⟨hnil, he⟩
        · exact h.other ha hut he
        · have hnil' : (s'.loc u).unsent = [] := by
            cases hl : s'.loc u with
            | emit m e f => exact absurd hl (he m e f)
            | _ => rfl
          have hself : pairsOf u (asked ++ begun a s) = pairsOf u (log ++ (committed s a).toList) ++ (s.loc u).unsent :=
            h.other ha hut rfl
          rw [hnil] at hself
          rw [hnil', ← hself, pairsOf_append, pairsOf_append, begun_returns ha, begun_returns ha, pairsOf_started t u s' hut,
            pairsOf_started t u s hut]
  cases hs.move with
  | stay ha hl hm =>
    have hb : begun a s' = [] := by
      cases hs with
      | signal hc _ =>
        refine not_started fun m f he => ?_
        rw [hl] at he
        rw [he] at hc
        cases hc
      | sleep | spurious => rfl
      | _ => exact absurd rfl (ha _ _)
    rw [committed_of_no_return ha, hb]
    refine ⟨fun u m e f hu => h.intact u m e f (by rw [← hl]; exact hu), fun u => ?_⟩
    rw [hl]
    simpa using h.by_thread u
  | create t u ha hc hu hl hm =>
    have hut : u ≠ t := by
      rintro rfl
      rw [hc] at hu
      cases hu
    have hne : ∀ m e f, s.loc t ≠ .emit m e f := fun m e f he => by
      rw [he] at hc
      cases e <;> cases hc
    refine moves (fun m e f he => absurd he (hne m e f)) (.inl ha) (fun _ _ => ha) (by rw [hl]; simp) fun v hv => ?_
    rw [hl, Function.update_of_ne hv]
    by_cases hvu : v = u
    · subst hvu
      rw [Function.update_self]
      refine .inr ⟨?_, fun m e f => hentry v m e f⟩
      cases hlv : s.loc v with
      | emit m e f =>
        rw [hlv] at hu
        cases e <;> cases hu
      | _ => rfl
    · rw [Function.update_of_ne hvu]
      exact .inl rfl
  | call t r hr ha hx hl hm =>
    refine moves (fun _ _ _ _ => hr) ha hx (by rw [hl]; simp) fun v hv => ?_
    rw [hl, Function.update_of_ne hv]
    exact .inl rfl

end Runtime

/-! ## The process -/

section Process

variable {ω Φ : Type} {C : ProcessCode ω Φ} {args : PoolArgs} {size : Nat} {stdin : Bytes}

/-- The process, with the messages that its threads have passed to the emits. -/
def ProcessCode.emitting (C : ProcessCode ω Φ) (args : PoolArgs) (size : Nat) (stdin : Bytes) :
    Lts (Hosted ω Φ × List (Tid × Msg)) (Act Tid Val) where
  init := (C.init args.queueSize stdin, started .controller (C.init args.queueSize stdin).threads)
  step x a := (C.step (args.room size) x.1 a).map fun s' => (s', x.2 ++ begun a s'.threads)

/-- It runs as it does without them. -/
theorem reach_emitting {Cond : Hosted ω Φ × List (Tid × Msg) → Act Tid Val → Prop} {P : Hosted ω Φ → Act Tid Val → Prop}
    (hP : ∀ x a, Cond x a → P x.1 a) {x : Hosted ω Φ × List (Tid × Msg)} (h : Reach (C.emitting args size stdin) Cond x) :
    Reach (C.system args size stdin) P x.1 := by
  induction h with
  | init => exact .init
  | step _ hc he ih =>
    obtain ⟨s', hs, rfl⟩ := Option.map_eq_some_iff.mp he
    exact .step ih (hP _ _ hc) hs

theorem writesOk_of_legal {s : PoolState ω Φ} {a : Act Tid Val} (hio : Legal C s a) : writesOk s a = true := by
  cases a with
  | ret t r =>
    cases hl : s.loc t with
    | emit m e f =>
      cases e with
      | write c cs =>
        have hk := hio t r (.write stdoutFileno c) rfl (by rw [hl]; rfl)
        rcases r with _ | _ | _ | (k | _ | _ | _ | _ | _ | _ | _ | _)
        · cases hk
        · simp [writesOk, hl]
        · cases hk
        · simpa [writesOk, hl, Sys.mayReturn] using hk
        all_goals cases hk
      | _ => simp [writesOk, hl]
    | _ => simp [writesOk, hl]
  | _ => rfl

/-- Then no message is torn. -/
theorem EmitsGoOn.tears {s : PoolState ω Φ} {a : Act Tid Val} (h : EmitsGoOn s a) : MrLib.tears s a = none := by
  cases htear : MrLib.tears s a with
  | none => rfl
  | some m =>
    obtain ⟨t, c, cs, f, rfl, hl⟩ := tears_inv htear
    cases h t _ _ f rfl hl

/-- Who is inside an emit owns the mutex; the output is the messages of `log`, and so are the messages that were passed to
the emits. -/
structure Emitted (s : PoolState ω Φ) (log asked : List (Tid × Msg)) : Prop where
  owned : Owned .stdout TLoc.inEmit s
  untorn : Untorn s log
  asked : Asked s log asked

theorem emitted_init (C : ProcessCode ω Φ) (capacity : Nat) (stdin : Bytes) :
    Emitted (C.init capacity stdin).threads [] (started .controller (C.init capacity stdin).threads) := by
  have hlock : ∀ t m e f, (C.init capacity stdin).threads.loc t = .emit m e f → e = .lock := by
    intro t m e f h
    cases t with
    | controller =>
      rw [init_controller] at h
      exact enter_emit h
    | worker i =>
      rw [init_worker] at h
      cases h
  have hout : ∀ t, ¬ ((C.init capacity stdin).threads.loc t).inEmit := by
    rintro t ⟨m, e, f, hl, he⟩
    obtain rfl := hlock t m e f hl
    cases he
  refine ⟨fun t ht => absurd ht (hout t), ⟨fun _ => rfl, fun t m e f hl he => absurd ⟨m, e, f, hl, he⟩ (hout t)⟩,
    fun t m e f hl => by rw [hlock t m e f hl]; rfl, fun t => ?_⟩
  cases t with
  | controller => exact started_unsent (hlock .controller)
  | worker i =>
    rw [pairsOf_started _ _ _ (by simp), init_worker]
    rfl

/-- **The run lemma.** -/
theorem emitted_of_reach (hw : ∃ c k, C.worker.run = .call (.io c) k)
    {Cond : Hosted ω Φ × List (Tid × Msg) → Act Tid Val → Prop} (hgo : ∀ x a, Cond x a → EmitsGoOn x.1.threads a)
    {x : Hosted ω Φ × List (Tid × Msg)} (h : Reach (C.emitting args size stdin) Cond x) :
    ∃ log, Emitted x.1.threads log x.2 := by
  refine h.inv (I := fun x => ∃ log, Emitted x.1.threads log x.2) ⟨[], emitted_init C _ _⟩ ?_
  rintro x a x' ⟨log, hE⟩ hc he
  obtain ⟨s', hs, rfl⟩ := Option.map_eq_some_iff.mp he
  obtain ⟨htr, hio⟩ := ProcessCode.step_spec hs
  have hwrites := writesOk_of_legal hio
  have hO := (runtime_enclosed_stdout C.client).owned hE.owned htr
  refine ⟨_, hO, hE.untorn.step hE.owned hO htr hwrites (hgo x a hc).tears, hE.asked.step htr (hgo x a hc) hwrites ?_⟩
  -- a worker starts with its first call
  intro u m e f he
  obtain ⟨c, k, hk⟩ := hw
  have hentry : (runtime C.client).entry u = (PFrame.enter ⟨.io c, k⟩).enter := by
    simp [runtime, ProcessCode.client, ProcessCode.go, hk, runOn, Shared.exec]
  rw [hentry] at he
  cases c <;> cases he

/-- **What a process puts out** whose threads have ended: the messages that were passed to the emits. -/
theorem all_put_out (hw : ∃ c k, C.worker.run = .call (.io c) k)
    {Cond : Hosted ω Φ × List (Tid × Msg) → Act Tid Val → Prop} (hgo : ∀ x a, Cond x a → EmitsGoOn x.1.threads a)
    {x : Hosted ω Φ × List (Tid × Msg)} (h : Reach (C.emitting args size stdin) Cond x) (ho : Over x.1.threads) :
    ∃ ms : List Msg, ms.Perm (x.2.map Prod.snd) ∧ x.1.threads.mem.stdout.out = ms.flatMap Msg.wire := by
  obtain ⟨log, hE⟩ := emitted_of_reach hw hgo h
  refine ⟨log.map Prod.snd, List.Perm.map _ (perm_of_pairsOf fun t => ?_), ?_⟩
  · rw [hE.asked.by_thread t]
    rcases ho t with ⟨c, hc⟩ | hc <;> simp [hc, TLoc.unsent]
  · rw [hE.untorn.quiet ho.quiet, wires, List.flatMap_map]

end Process

end MrLib
