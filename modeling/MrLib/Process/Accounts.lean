import MrLib.Process.Ended
import MrLib.Process.Traces
import MrLib.Protocol.PairStream

/-!
# The accounts of a process

What the traces of the threads say about the process, in a run in which no call fails: the standard input was read by
the controller, call by call (`Accounted.input`), and the standard output holds the messages that the threads have
emitted, whole, each thread's in its order (`Accounted.emitted`).
-/

namespace MrLib

open Conc

variable {ω Φ : Type} {C : ProcessCode ω Φ} {s s' : PoolState ω Φ} {a : Act Tid Val} {t : Tid}
  {A : Sys → Ret Val → Prop} {W : Prop}

/-! ## Nothing has failed -/

/-- No callee of a thread here has seen a failure. -/
def TLoc.sound {β F : Type} {es : Nat} : TLoc β es F → Bool
  | .log .postFailed _ | .queue .pushFailed _ | .queue .popFailed _ | .queue .closeFailed _ => false
  | .emit _ e _ => e.good
  | _ => true

theorem enter_sound {β F : Type} {es : Nat} (n : Next β es F) : n.enter.sound = true := by
  cases n <;> rfl

/-- It has seen none after a call that does not fail. -/
theorem sound_next {cl : Client Tid (Option ω) 1 (Shared ω) (PFrame ω (Except Int Φ))} {r : Ret Val}
    (h : (s.loc t).sound = true) (hr : (runtime cl).Answers s t r) (hf : r ≠ .fail)
    (hio : ∀ e, (runtime cl).call (s.loc t) = .ext e → e.mayReturn (fun _ => .other) r = true) (x : Mem (Option ω) (Shared ω)) :
    ((runtime cl).next t (s.loc t) r x).1.sound = true := by
  cases hl : s.loc t with
  | absent | done c => rfl
  | own f => exact enter_sound _
  | log l f =>
    rw [hl] at h
    simp only [runtime, TLoc.next]
    cases hn : l.next r with
    | inr n => exact enter_sound _
    | inl l' => cases l <;> cases r <;> simp_all [LogLoc.next, TLoc.sound] <;> subst hn <;> rfl
  | queue q f =>
    have hok : r = .ok := by
      rw [Code.Answers, hl] at hr
      cases q <;> exact hr.resolve_right hf
    subst hok
    rw [hl] at h
    simp only [runtime, TLoc.next]
    rcases hn : q.next x.queue .ok with ⟨q' | b, Q⟩
    · cases q with
      | pushLock y | pushWait y =>
        simp only [QLoc.next, Prod.map, id_eq, Prod.mk.injEq, Sum.inl.injEq, Queue.pushTest] at hn
        split at hn <;> obtain ⟨rfl, -⟩ := hn <;> rfl
      | popLock | popWait =>
        simp only [QLoc.next, Prod.map, id_eq, Prod.mk.injEq, Sum.inl.injEq, Queue.popTest] at hn
        split at hn
        · split at hn <;> obtain ⟨rfl, -⟩ := hn <;> rfl
        · obtain ⟨rfl, -⟩ := hn
          rfl
      | _ => cases hn <;> rfl
    · exact enter_sound _
  | emit m e f =>
    rw [hl] at h hio
    simp only [runtime, TLoc.next]
    rcases hn : e.next m x.stdout r with ⟨e' | n, o⟩
    · cases e with
      | lock =>
        have hok : r = .ok := by
          rw [Code.Answers, hl] at hr
          exact hr.resolve_right hf
        subst hok
        cases hn
        rfl
      | write c cs =>
        have hk := hio _ rfl
        rcases r with _ | _ | _ | v
        · cases hk
        · exact absurd rfl hf
        · cases hk
        · cases v with
          | count k =>
            simp only [EmitLoc.next] at hn
            split at hn
            · cases cs <;> cases hn <;> rfl
            · cases hn
              rfl
          | _ => cases hk
      | unlock res =>
        have hok : r = .ok := by
          rw [Code.Answers, hl] at hr
          exact hr.resolve_right hf
        subst hok
        cases hn
      | _ => cases h
    · exact enter_sound _

/-- No callee has seen a failure. -/
def Sound (s : PoolState ω Φ) : Prop := ∀ t, (s.loc t).sound = true

theorem Sound.step (h : Sound s) (hs : Trans (runtime C.client) s a s') (hio : Legal C s a) (hok : a.ok = true) :
    Sound s' := by
  intro u
  cases hs.move with
  | stay _ hl _ =>
    rw [hl]
    exact h u
  | call t r hr ha hx hl _ =>
    rw [hl]
    by_cases hu : u = t
    · subst hu
      rw [Function.update_self]
      exact sound_next (h u) hr (ha.ne_fail hok) (fun e he => hio u r e (hx e he) he) _
    · rw [Function.update_of_ne hu]
      exact h u
  | create t v ha hc hv hl _ =>
    rw [hl]
    by_cases hu : u = t
    · subst hu
      rw [Function.update_self]
      obtain ⟨f, i, hlu, -⟩ := own_of_create hc
      rw [hlu]
      exact enter_sound _
    · rw [Function.update_of_ne hu]
      by_cases huv : u = v
      · subst huv
        rw [Function.update_self]
        exact enter_sound _
      · rw [Function.update_of_ne huv]
        exact h u

/-! ## The answers -/

theorem log_returns {l : LogLoc} {r : Ret Val} {n : Int} (h : l.next r = .inr n) : n = 0 ∨ r = .fail ∨ l = .postFailed := by
  cases l <;> cases r <;> simp_all [LogLoc.next]

/-- What a queue operation returns when its last call has returned. -/
theorem queue_returns {q : QLoc (Option ω) 1} {Q : Queue (Option ω)} {r : Ret Val} {b : QRet (Option ω)}
    (h : (q.next Q r).1 = .inr b) (hr : r = .ok ∨ r = .fail) :
    b.res = 0 ∨ b.res = 1 ∧ b.out = [] ∧ q = .popClosed ∨
      b.res = -1 ∧ b.out = [] ∧ (r = .fail ∨ q = .pushFailed ∨ q = .popFailed ∨ q = .closeFailed) := by
  rcases hr with rfl | rfl <;> cases q <;> simp_all [QLoc.next] <;> subst h <;> simp

theorem good_cases {e : EmitLoc} (h : e.good = true) : e = .lock ∨ (∃ c cs, e = .write c cs) ∨ e = .unlock 0 := by
  unfold EmitLoc.good at h
  split at h
  · exact .inl rfl
  · exact .inr (.inl ⟨_, _, rfl⟩)
  · exact .inr (.inr rfl)
  · cases h

/-- An emit that has seen no failure returns from its unlock, with 0. -/
theorem emit_returns {m : Msg} {o : Stdout} {e : EmitLoc} {r : Ret Val} {n : Int} (hg : e.good = true)
    (h : (e.next m o r).1 = .inr n) : e = .unlock 0 ∧ r = .ok ∧ n = 0 := by
  rcases good_cases hg with rfl | ⟨c, cs, rfl⟩ | rfl
  · cases r <;> cases h
  · rcases r with _ | _ | _ | v
    · cases h
    · cases h
    · cases h
    · cases v with
      | count k =>
        simp only [EmitLoc.next] at h
        split at h <;> cases h
      | _ => cases h
  · cases r <;> cases h
    exact ⟨rfl, rfl, rfl⟩

/-- What comes back fits the call. -/
theorem ComesBack.fits {c : PCall ω} {r : PRet ω} (h : ComesBack s a t c r) (hA : ∀ f e r, s.loc t = .own f →
    f.call = .io (.sys e) → a = .ret t r → A e r) (hwell : W → a.ok = true ∧ Sound s) : c.Fits A W r := by
  cases h with
  | @log l f level format r n hl hn ha =>
    refine ⟨n, rfl, fun hw => ?_⟩
    obtain ⟨hok, hs⟩ := hwell hw
    rcases log_returns hn with h0 | rfl | rfl
    · exact h0
    · exact absurd rfl (ha.ne_fail hok)
    · have := hs t
      rw [hl] at this
      cases this
  | @queue q f _ r b hl hq hn ha hr =>
    have hbad : W → ¬ (r = .fail ∨ q = .pushFailed ∨ q = .popFailed ∨ q = .closeFailed) := by
      intro hw hbad
      obtain ⟨hok, hs⟩ := hwell hw
      have hst := hs t
      rw [hl] at hst
      rcases hbad with rfl | rfl | rfl | rfl
      · exact absurd rfl (ha.ne_fail hok)
      · cases hst
      · cases hst
      · cases hst
    have hret := queue_returns hn hr
    have int : (b.res = 1 ∧ b.out = [] ∧ q = .popClosed → False) →
        (b.res = 0 ∨ b.res = -1) ∧ (W → b.res = 0) := fun hne => by
      rcases hret with h0 | h1 | ⟨h0, -, hb⟩
      · exact ⟨.inl h0, fun _ => h0⟩
      · exact (hne h1).elim
      · exact ⟨.inr h0, fun hw => absurd hb (hbad hw)⟩
    cases q with
    | pushLock | pushWait =>
      obtain ⟨x, -, rfl⟩ := hq
      exact ⟨b.res, rfl, int (by simp)⟩
    | pushSignal | pushUnlock | pushFailed =>
      obtain ⟨x, rfl⟩ := hq
      exact ⟨b.res, rfl, int (by simp)⟩
    | closeLock | closeBroadcast | closeUnlock | closeFailed =>
      obtain rfl := hq
      exact ⟨b.res, rfl, int (by simp)⟩
    | popLock | popWait | popSignal | popUnlock | popClosed | popFailed =>
      obtain rfl := hq
      refine ⟨b.res, _, rfl, ?_, fun hw => ?_⟩
      · rcases hret with h0 | ⟨-, h0, -⟩ | ⟨-, h0, -⟩
        · exact .inl h0
        · exact .inr (by rw [h0])
        · exact .inr (by rw [h0])
      · rcases hret with h0 | ⟨h0, -⟩ | ⟨-, -, hb⟩
        · exact .inl h0
        · exact .inr h0
        · exact absurd hb (hbad hw)
  | @emit m e f r n hl hn ha =>
    refine ⟨n, rfl, fun hw => ?_⟩
    obtain ⟨hok, hs⟩ := hwell hw
    have hg := hs t
    rw [hl] at hg
    exact (emit_returns hg hn).2.2
  | sys hl hc ha => exact ⟨_, rfl, hA _ _ _ hl hc ha⟩
  | create hl hc ha hr =>
    rcases hr with rfl | rfl
    · exact ⟨0, rfl, .inl rfl, fun _ => rfl⟩
    · refine ⟨-1, rfl, .inr rfl, fun hw => ?_⟩
      rw [ha] at hwell
      cases (hwell hw).1
  | join hl hc ha hr =>
    rcases hr with ⟨k, rfl⟩ | rfl
    · exact ⟨some k, rfl, fun _ => by simp⟩
    · refine ⟨none, rfl, fun hw => ?_⟩
      rw [ha.fail] at hwell
      cases (hwell hw).1

/-- The call that comes back is a call. -/
theorem ComesBack.loud {c : PCall ω} {r : PRet ω} (h : ComesBack s a t c r) : c.silent = false ∧ c.event? = none := by
  cases h with
  | @queue q f _ r b hl hq hn ha hr =>
    cases q with
    | pushLock | pushWait =>
      obtain ⟨x, -, rfl⟩ := hq
      exact ⟨rfl, rfl⟩
    | pushSignal | pushUnlock | pushFailed =>
      obtain ⟨x, rfl⟩ := hq
      exact ⟨rfl, rfl⟩
    | _ =>
      obtain rfl := hq
      exact ⟨rfl, rfl⟩
  | _ => exact ⟨rfl, rfl⟩

/-! ## The traces of a run -/

theorem eventsBy_append (t : Tid) (es es' : List (Tid × Event ω)) :
    eventsBy t (es ++ es') = eventsBy t es ++ eventsBy t es' := by
  simp [eventsBy]

theorem eventsBy_map (t u : Tid) (es : List (Event ω)) :
    eventsBy u (es.map fun e => (t, e)) = if u = t then es else [] := by
  by_cases h : u = t
  · subst h
    simp [eventsBy, List.filter_map, Function.comp_def]
  · simp [eventsBy, List.filter_map, Function.comp_def, Ne.symm h, h]

/-- **The threads have done what their traces say.** -/
structure ProcessCode.Traced (C : ProcessCode ω Φ) (A : Sys → Ret Val → Prop) (W : Prop) (s : PoolState ω Φ)
    (τ : Tid → ThreadTrace ω) : Prop where
  trodden : C.Trodden s τ
  fits : ∀ t, ∀ x ∈ τ t, x.1.Fits A W x.2
  events : ∀ t, eventsBy t s.mem.user.events = eventsIn (τ t)

/-- What a step tells fits, and is recorded. -/
theorem Told.spec {r : Ret Val} {m' : Shared ω} {σ : ThreadTrace ω} (h : Told A W s a t r m' σ)
    (hA : ∀ f e r, s.loc t = .own f → f.call = .io (.sys e) → a = .ret t r → A e r)
    (hwell : W → a.ok = true ∧ Sound s) :
    (∀ x ∈ σ, x.1.Fits A W x.2) ∧ m'.events = s.mem.user.events ++ (eventsIn σ).map fun e => (t, e) := by
  cases h with
  | inside hm _ _ => exact ⟨nofun, by rw [hm]; exact (List.append_nil _).symm⟩
  | @back c x σ h hσ =>
    constructor
    · intro y hy
      rcases List.mem_cons.mp hy with rfl | hy
      · exact h.fits hA hwell
      · exact hσ.fits y hy
    · rw [hσ.events]
      simp [eventsIn, h.loud.2]

/-- The answers of the system in this step are as `A` says. -/
def Gives (A : Sys → Ret Val → Prop) (C : ProcessCode ω Φ) (s : PoolState ω Φ) (a : Act Tid Val) : Prop :=
  ∀ t r e, a = .ret t r → (runtime C.client).call (s.loc t) = .ext e → A e r

theorem Gives.own (h : Gives A C s a) {f : PFrame ω (Except Int Φ)} {e : Sys} {r : Ret Val} (hl : s.loc t = .own f)
    (hc : f.call = .io (.sys e)) (ha : a = .ret t r) : A e r :=
  h t r e ha (by simp [hl, runtime, TLoc.call, ProcessCode.client, PFrame.own, hc, OwnCall.call])

/-- **Every step keeps the traces true.** -/
theorem ProcessCode.Traced.step (hw : ∃ c k, C.worker.run = .call (.io c) k) {τ : Tid → ThreadTrace ω}
    (h : C.Traced A W s τ) (hs : Trans (runtime C.client) s a s') (hio : Legal C s a) (hA : Gives A C s a)
    (hwell : W → a.ok = true ∧ Sound s) : ∃ τ', C.Traced A W s' τ' ∧ Grown A W C s a s' τ τ' := by
  obtain ⟨τ', htr, hg⟩ := h.trodden.step (A := A) (W := W) hw hs hio
  refine ⟨τ', ?_, hg⟩
  -- what is the same for a call and a creation
  have more : ∀ {t : Tid} {r : Ret Val} {σ : ThreadTrace ω}, τ' = Function.update τ t (τ t ++ σ) →
      Told A W s a t r s'.mem.user σ → C.Traced A W s' τ' := by
    rintro t r σ rfl hσ
    obtain ⟨hf, he⟩ := hσ.spec (fun f e r hl hc ha => hA.own hl hc ha) hwell
    refine ⟨htr, fun u x hx => ?_, fun u => ?_⟩
    · by_cases hu : u = t
      · subst hu
        rw [Function.update_self] at hx
        exact (List.mem_append.mp hx).elim (h.fits u x) (hf x)
      · rw [Function.update_of_ne hu] at hx
        exact h.fits u x hx
    · rw [he, eventsBy_append, eventsBy_map, h.events u]
      by_cases hu : u = t
      · subst hu
        rw [Function.update_self, if_pos rfl]
        simp [eventsIn]
      · rw [Function.update_of_ne hu, if_neg hu, List.append_nil]
  cases hg with
  | stay ha hl hm => exact ⟨htr, h.fits, fun u => by rw [hm]; exact h.events u⟩
  | call t r σ _ _ _ _ _ hσ => exact more rfl hσ
  | create t i σ f _ _ _ _ _ _ hσ => exact more rfl hσ

/-- The process when it starts. -/
theorem traced_init (A : Sys → Ret Val → Prop) (W : Prop) (C : ProcessCode ω Φ) (capacity : Nat) (stdin : Bytes) :
    ∃ σ, C.Traced A W (C.init capacity stdin).threads (fun t => if t = .controller then σ else []) ∧
      ∀ x ∈ σ, x.1.silent = true := by
  obtain ⟨σ, hσ, hat⟩ := go_trod A W (t := .controller) (C := C) (p := C.main.run) .empty .start
  refine ⟨σ, ⟨fun t => ?_, fun t x hx => ?_, fun t => ?_⟩, hσ.silent⟩
  · cases t with
    | controller => exact hat
    | worker i => rfl
  · cases t with
    | controller => exact hσ.fits x hx
    | worker i => cases hx
  · show eventsBy t (C.go .controller C.main.run .empty).2.events = _
    rw [hσ.events]
    simp only [Shared.empty, List.nil_append, eventsBy_map]
    split <;> rfl

variable {args : PoolArgs} {size : Nat} {stdin : Bytes} {Cond : Hosted ω Φ → Act Tid Val → Prop}

/-- **The run lemma of the traces.** -/
theorem traced_of_reach (A : Sys → Ret Val → Prop) (hw : ∃ c k, C.worker.run = .call (.io c) k)
    (hA : ∀ s a, Cond s a → Legal C s.threads a → Gives A C s.threads a) {s : Hosted ω Φ}
    (h : Reach (C.system args size stdin) Cond s) : ∃ τ, C.Traced A False s.threads τ := by
  refine h.inv (I := fun s => ∃ τ, C.Traced A False s.threads τ) ?_ ?_
  · obtain ⟨σ, hσ, -⟩ := traced_init A False C args.queueSize stdin
    exact ⟨_, hσ⟩
  · rintro s a s' ⟨τ, ht⟩ hc he
    obtain ⟨htr, hio⟩ := ProcessCode.step_spec he
    obtain ⟨τ', ht', -⟩ := ht.step hw htr hio (hA s a hc hio) nofun
    exact ⟨τ', ht'⟩

/-! ## The accounts -/

/-- The messages emitted in a trace. -/
def emitsIn (τ : ThreadTrace ω) : List Msg :=
  τ.filterMap fun x =>
    match x.1 with
    | .emit m => some m
    | _ => none

/-- The message that a thread has written while its emit has not returned. -/
def TLoc.written {β F : Type} {es : Nat} : TLoc β es F → List Msg
  | .emit m (.unlock _) _ => [m]
  | _ => []

/-- The standard input along the calls of a thread. -/
def inputEnv (stdin : Bytes) (c : PCall ω) (r : PRet ω) (stdin' : Bytes) : Prop :=
  match c with
  | .io (.sys e) => ∃ r0, r = .sys r0 ∧ serve stdin e r0 = some stdin'
  | _ => stdin' = stdin

/-- **The accounts of a process** in which no call has failed: the traces `τ` of its threads, and the messages `log` on its
standard output. -/
structure ProcessCode.Accounted (C : ProcessCode ω Φ) (A : Sys → Ret Val → Prop) (stdin : Bytes) (s : Hosted ω Φ)
    (τ : Tid → ThreadTrace ω) (log : List (Tid × Msg)) : Prop where
  traced : C.Traced A True s.threads τ
  sound : Sound s.threads
  waits : Waits (runtime C.client) s.threads
  mutex : Mutual .stdout TLoc.inEmit s.threads
  framed : Framed s.threads log
  emitted : ∀ t, pairsOf t log = emitsIn (τ t) ++ (s.threads.loc t).written
  input : Prog.Walks inputEnv stdin (τ .controller) s.stdin

theorem emitsIn_append (τ σ : ThreadTrace ω) : emitsIn (τ ++ σ) = emitsIn τ ++ emitsIn σ := by simp [emitsIn]

/-- Calls that are none emit nothing. -/
theorem emitsIn_silent {σ : ThreadTrace ω} (h : ∀ x ∈ σ, x.1.silent = true) : emitsIn σ = [] := by
  simp only [emitsIn, List.filterMap_eq_nil_iff]
  intro x hx
  have hs := h x hx
  cases hc : x.1 with
  | emit m =>
    rw [hc] at hs
    cases hs
  | _ => rfl

theorem enter_written {β F : Type} {es : Nat} (n : Next β es F) : n.enter.written = [] := by
  cases n <;> rfl

/-- They read nothing either. -/
theorem walks_silent {st st' : Bytes} {τ : ThreadTrace ω} (h : Prog.Walks inputEnv st τ st') :
    ∀ {σ : ThreadTrace ω}, (∀ x ∈ σ, x.1.silent = true) → Prog.Walks inputEnv st (τ ++ σ) st' := by
  intro σ
  induction σ generalizing τ with
  | nil =>
    intro _
    rw [List.append_nil]
    exact h
  | cons x σ ih =>
    intro hσ
    have hx : inputEnv st' x.1 x.2 st' := by
      have hs := hσ x List.mem_cons_self
      unfold inputEnv
      split
      · rename_i hc
        rw [hc] at hs
        cases hs
      · rfl
    have := ih (τ := τ ++ [x]) (.snoc h hx) fun y hy => hσ y (List.mem_cons_of_mem _ hy)
    rw [List.append_assoc] at this
    exact this

/-- Only a read takes something from the standard input. -/
theorem serve_same {st st' : Bytes} {e : Sys} {r : Ret Val} (hr : ∀ fd n, e ≠ .read fd n) (h : serve st e r = some st') :
    st' = st := by
  unfold serve at h
  split at h
  · exact absurd rfl (hr _ _)
  · split at h <;> cases h
    rfl

/-- A callee reads nothing. -/
theorem call_of_callee {l : TLoc (Option ω) 1 (PFrame ω (Except Int Φ))} (h : ∀ f, l ≠ .own f) {e : Sys}
    (hc : (runtime C.client).call l = .ext e) (fd n : Nat) : e ≠ .read fd n := by
  cases l with
  | log l f =>
    cases hc
    exact fun h => by cases h
  | emit m e f =>
    cases e with
    | write c cs =>
      cases hc
      exact fun h => by cases h
    | lock => cases hc
    | unlock res => cases hc
    | _ =>
      cases hc
      exact fun h => by cases h
  | queue q f => cases q <;> cases hc
  | own f => exact absurd rfl (h f)
  | _ => cases hc

/-- What a step does to the standard input. -/
theorem serves_of_step {room : Nat} {s s' : Hosted ω Φ} (h : C.step room s a = some s') : C.serves s a = some s'.stdin := by
  unfold ProcessCode.step at h
  split at h
  · rename_i stdin t hserve _
    split at h
    · cases h
      exact hserve
    · cases h
  · cases h

theorem emitsOk_of_legal (hok : a.ok = true) (hio : Legal C s a) : emitsOk C.client s a = true := by
  unfold emitsOk
  rw [hok, Bool.true_and]
  cases a with
  | ret t r =>
    cases hc : (runtime C.client).call (s.loc t) with
    | ext e =>
      cases e with
      | write fd c =>
        have hk := hio t r _ rfl hc
        rcases r with _ | _ | _ | v
        · cases hk
        · cases hok
        · cases hk
        · cases v with
          | count k => simpa [hc, Sys.mayReturn] using hk
          | _ => cases hk
      | _ => simp [hc]
    | _ => simp [hc]
  | _ => rfl

/-- The messages of a thread that moves. -/
theorem written_next {r : Ret Val} {σ : ThreadTrace ω} {m' : Shared ω} (hs : (s.loc t).sound = true)
    (hr : (runtime C.client).Answers s t r) (ha : a.returns t r) (hx : (runtime C.client).Direct s a t r)
    (hok : a.ok = true) (hio : Legal C s a) (hσ : Told A W s a t r m' σ) :
    (s.loc t).written ++ pairsOf t (committed s a).toList =
      emitsIn σ ++ ((runtime C.client).next t (s.loc t) r s.mem).1.written := by
  have hnf := ha.ne_fail hok
  have hsil : emitsIn σ = (s.loc t).written := by
    cases hσ with
    | inside _ _ hemit =>
      cases hl : s.loc t with
      | emit m e f =>
        rw [hl] at hs
        rcases good_cases hs with rfl | ⟨c, cs, rfl⟩ | rfl
        · rfl
        · rfl
        · rw [Code.Answers, hl] at hr
          obtain rfl := hr.resolve_right hnf
          exact absurd rfl (hemit m _ f 0 hl)
      | _ => rfl
    | @back c x σ h hσ =>
      have hcons : emitsIn ((c, x) :: σ) = emitsIn [(c, x)] := by
        rw [← List.singleton_append, emitsIn_append, emitsIn_silent hσ.silent, List.append_nil]
      rw [hcons]
      cases h with
      | @emit m e f r' n hl hn ha' =>
        rw [hl] at hs ⊢
        obtain ⟨rfl, -, -⟩ := emit_returns hs hn
        rfl
      | @queue q f _ r' b hl hq hn ha' hr' =>
        rw [hl]
        cases q with
        | pushLock | pushWait =>
          obtain ⟨x, -, rfl⟩ := hq
          rfl
        | pushSignal | pushUnlock | pushFailed =>
          obtain ⟨x, rfl⟩ := hq
          rfl
        | _ =>
          obtain rfl := hq
          rfl
      | log hl _ _ =>
        rw [hl]
        rfl
      | sys hl _ _ | create hl _ _ _ | join hl _ _ _ =>
        rw [hl]
        rfl
  rw [hsil]
  by_cases hem : ∀ m e f, s.loc t ≠ .emit m e f
  · rw [committed_returns ha fun m c f _ he => absurd he (hem m _ f)]
    have hw : ((runtime C.client).next t (s.loc t) r s.mem).1.written = [] := by
      cases hn : ((runtime C.client).next t (s.loc t) r s.mem).1 with
      | emit m e f =>
        rw [next_emit C.client hem t r s.mem hn]
        rfl
      | _ => rfl
    rw [hw]
    cases hl : s.loc t with
    | emit m e f => exact absurd hl (hem m e f)
    | _ => rfl
  · simp only [ne_eq, not_forall, not_not] at hem
    obtain ⟨m, e, f, hl⟩ := hem
    rw [hl] at hs ⊢
    rw [Code.Answers, hl] at hr
    rcases good_cases hs with rfl | ⟨c, cs, rfl⟩ | rfl
    · obtain rfl := hr.resolve_right hnf
      rw [committed_ok ha]
      rfl
    · have hcall : (runtime C.client).call (s.loc t) = .ext (.write stdoutFileno c) := by
        rw [hl]
        rfl
      obtain rfl := hx _ hcall
      have hk := hio t r _ rfl hcall
      rcases r with _ | _ | _ | v
      · cases hk
      · exact absurd rfl hnf
      · cases hk
      · cases v with
        | count k =>
          by_cases hck : c.length ≤ k
          · cases cs with
            | nil =>
              simp [runtime, TLoc.next, EmitLoc.next, hck, EmitLoc.send, committed, hl, pairsOf_singleton, TLoc.written]
            | cons c' cs' =>
              simp [runtime, TLoc.next, EmitLoc.next, hck, EmitLoc.send, committed, hl, TLoc.written, pairsOf]
          · rw [committed_short hl hck]
            simp [runtime, TLoc.next, EmitLoc.next, hck, TLoc.written, pairsOf]
        | _ => cases hk
    · obtain rfl := hr.resolve_right hnf
      rw [committed_ok ha]
      have hw : ((runtime C.client).next t (.emit m (.unlock 0) f) .ok s.mem).1.written = [] := enter_written _
      rw [hw]
      rfl

/-- The calls of a worker are not reads. -/
def ProcessCode.Quiet (C : ProcessCode ω Φ) (A : Sys → Ret Val → Prop) : Prop :=
  ∀ i τ e k, C.Trod (.worker i) τ (.call (.io (.sys e)) k) → (∀ x ∈ τ, x.1.Fits A True x.2) → ∀ fd n, e ≠ .read fd n

/-- The standard input after a call that is none of the thread function's own. -/
theorem stdin_same {s : Hosted ω Φ} {stdin' : Bytes} (h : C.serves s a = some stdin')
    (hr : ∀ t r e, a = .ret t r → (runtime C.client).call (s.threads.loc t) = .ext e → ∀ fd n, e ≠ .read fd n) :
    stdin' = s.stdin := by
  unfold ProcessCode.serves at h
  split at h
  · rename_i t r
    split at h
    · rename_i e hc
      exact serve_same (hr t r e rfl hc) h
    · cases h
      rfl
  · cases h
    rfl

/-- The standard input of a thread that moves. -/
theorem input_next {s : Hosted ω Φ} {stdin stdin' : Bytes} {τ σ : ThreadTrace ω} {r : Ret Val} {m' : Shared ω}
    (h : Prog.Walks inputEnv stdin τ s.stdin) (hserve : C.serves s a = some stdin') (ha : a.returns t r)
    (hσ : Told A W s.threads a t r m' σ) : Prog.Walks inputEnv stdin (τ ++ σ) stdin' := by
  have quiet : (∀ e, (runtime C.client).call (s.threads.loc t) = .ext e → ∀ fd n, e ≠ .read fd n) →
      stdin' = s.stdin := fun hq => by
    refine stdin_same hserve fun u r' e hu hc => ?_
    have hut : u = t := by
      rcases ha with rfl | ⟨-, v, rfl⟩ | ⟨k, -, rfl⟩
      · cases hu
        rfl
      · cases hu
      · cases hu
        rfl
    subst hut
    exact hq e hc
  have callee : (∀ f, s.threads.loc t ≠ .own f) → stdin' = s.stdin := fun hl => quiet fun e => call_of_callee hl
  cases hσ with
  | inside _ hown _ =>
    rw [List.append_nil, callee hown]
    exact h
  | @back c x σ hb hσ =>
    have go : inputEnv s.stdin c x stdin' → Prog.Walks inputEnv stdin (τ ++ (c, x) :: σ) stdin' := fun hx => by
      have := walks_silent (.snoc h hx) hσ.silent
      rw [List.append_assoc] at this
      exact this
    apply go
    cases hb with
    | @sys e f r' hl hc ha' =>
      refine ⟨r', rfl, ?_⟩
      subst ha'
      have hcall : (runtime C.client).call (s.threads.loc t) = .ext e := by
        simp [hl, runtime, TLoc.call, ProcessCode.client, PFrame.own, hc, OwnCall.call]
      simpa [ProcessCode.serves, hcall] using hserve
    | log hl _ _ => exact callee fun f h => by rw [hl] at h; cases h
    | emit hl _ _ => exact callee fun f h => by rw [hl] at h; cases h
    | @queue q f _ r' b hl hq _ _ _ =>
      have heq := callee fun f h => by rw [hl] at h; cases h
      cases q with
      | pushLock | pushWait =>
        obtain ⟨x, -, rfl⟩ := hq
        exact heq
      | pushSignal | pushUnlock | pushFailed =>
        obtain ⟨x, rfl⟩ := hq
        exact heq
      | _ =>
        obtain rfl := hq
        exact heq
    | create hl hc _ _ =>
      exact quiet fun e he => by simp [hl, runtime, TLoc.call, ProcessCode.client, PFrame.own, hc, OwnCall.call] at he
    | join hl hc _ _ =>
      exact quiet fun e he => by simp [hl, runtime, TLoc.call, ProcessCode.client, PFrame.own, hc, OwnCall.call] at he

/-- A thread whose code reads nothing is not at a read. -/
theorem not_read {τ : ThreadTrace ω} (hat : C.At t τ (s.loc t))
    (hq : ∀ e k, C.Trod t τ (.call (.io (.sys e)) k) → ∀ fd n, e ≠ .read fd n) {e : Sys}
    (hc : (runtime C.client).call (s.loc t) = .ext e) : ∀ fd n, e ≠ .read fd n := by
  cases hl : s.loc t with
  | own f =>
    rw [hl] at hat hc
    have hc : (PFrame.own f).call = (Call.ext e : Call Tid Mtx Cv Sys) := hc
    rcases hat with ⟨hst, -⟩ | ⟨htr, ⟨e', he'⟩ | ⟨j, hj⟩ | ⟨j, hj⟩⟩
    · rw [hst] at hc
      cases hc
      exact fun fd n h => by cases h
    · simp only [PFrame.own, he', OwnCall.call, Call.ext.injEq] at hc
      subst hc
      rw [he'] at htr
      exact hq _ _ htr
    · simp [PFrame.own, hj, OwnCall.call] at hc
    · simp [PFrame.own, hj, OwnCall.call] at hc
  | _ => exact call_of_callee (fun f h => by rw [hl] at h; cases h) hc

/-- The standard input after a step: it was the controller that has read, if anybody has. -/
theorem stdin_next {s s' : Hosted ω Φ} {stdin : Bytes} {τ τ' : Tid → ThreadTrace ω}
    (h : Prog.Walks inputEnv stdin (τ .controller) s.stdin) (hg : Grown A W C s.threads a s'.threads τ τ')
    (hserve : C.serves s a = some s'.stdin)
    (hread : ∀ i e, (runtime C.client).call (s.threads.loc (.worker i)) = .ext e → ∀ fd n, e ≠ .read fd n) :
    Prog.Walks inputEnv stdin (τ' .controller) s'.stdin := by
  cases hg with
  | stay ha hl hm =>
    rw [stdin_same hserve fun t r e h => absurd h (ha t r)]
    exact h
  | call t r σ hr ha hx hl hm hσ =>
    cases t with
    | controller =>
      rw [Function.update_self]
      exact input_next h hserve ha hσ
    | worker i =>
      rw [Function.update_of_ne (by simp), stdin_same hserve fun u r' e hu hc => ?_]
      · exact h
      · have hut : u = .worker i := by
          rcases ha with rfl | ⟨-, v, rfl⟩ | ⟨k, -, rfl⟩
          · cases hu
            rfl
          · cases hu
          · cases hu
            rfl
        subst hut
        exact hread i e hc
  | create t i σ f ha hf hc hi hl hm hσ =>
    have hsame := stdin_same hserve fun u r e hu hcall => by
      rw [ha] at hu
      cases hu
      rw [hf] at hcall
      simp [runtime, TLoc.call, ProcessCode.client, PFrame.own, hc, OwnCall.call] at hcall
    cases t with
    | controller =>
      rw [Function.update_self]
      exact input_next h hserve (.inl ha) hσ
    | worker j =>
      rw [Function.update_of_ne (by simp), hsame]
      exact h

/-- **Every step keeps the accounts.** -/
theorem ProcessCode.Accounted.step {room : Nat} {s s' : Hosted ω Φ} {stdin : Bytes} {τ : Tid → ThreadTrace ω}
    {log : List (Tid × Msg)} (hw : ∃ c k, C.worker.run = .call (.io c) k) (hq : C.Quiet A)
    (h : C.Accounted A stdin s τ log) (he : C.step room s a = some s') (hok : a.ok = true)
    (hA : Gives A C s.threads a) : ∃ τ', C.Accounted A stdin s' τ' (log ++ (committed s.threads a).toList) := by
  obtain ⟨hs, hio⟩ := ProcessCode.step_spec he
  have hserve := serves_of_step he
  obtain ⟨τ', ht, hg⟩ := h.traced.step hw hs hio hA fun _ => ⟨hok, h.sound⟩
  have hsync : (runtime C.client).syncOk s.threads a = true := Code.syncOk_of_ok _ _ hok
  refine ⟨τ', ht, h.sound.step hs hio hok, h.waits.step hs,
    (runtime_guarded_stdout _).mutual h.waits h.mutex hs hsync,
    h.framed.step h.waits h.mutex hs (emitsOk_of_legal hok hio), fun u => ?_, ?_⟩
  · rw [pairsOf_append, h.emitted u]
    cases hg with
    | stay ha hl hm =>
      rw [committed_of_no_return ha, hl]
      exact List.append_nil _
    | call t r σ hr ha hx hl hm hσ =>
      by_cases hu : u = t
      · subst hu
        rw [hl, Function.update_self, Function.update_self, emitsIn_append, List.append_assoc, List.append_assoc,
          written_next (h.sound u) hr ha hx hok hio hσ]
      · rw [hl, Function.update_of_ne hu, Function.update_of_ne hu, pairsOf_others ha hu, List.append_nil]
    | create t i σ f ha hf hc hi hl hm hσ =>
      rw [committed_ok (.inl ha)]
      have hnil : emitsIn σ = [] := by
        cases hσ with
        | inside _ hown _ => exact absurd hf (hown f)
        | @back c x σ hb hσ =>
          rw [← List.singleton_append, emitsIn_append, emitsIn_silent hσ.silent, List.append_nil]
          have hown : ∀ m e f, s.threads.loc t ≠ .emit m e f := fun m e f h => by rw [hf] at h; cases h
          have hqueue : ∀ q f, s.threads.loc t ≠ .queue q f := fun q f h => by rw [hf] at h; cases h
          cases hb with
          | emit hl' _ _ => exact absurd hl' (hown _ _ _)
          | queue hl' _ _ _ _ => exact absurd hl' (hqueue _ _)
          | _ => rfl
      have hpairs : pairsOf u (none : Option (Tid × Msg)).toList = [] := rfl
      rw [hpairs, List.append_nil, hl]
      by_cases hu : u = t
      · subst hu
        rw [Function.update_self, Function.update_self, emitsIn_append, hnil, List.append_nil, hf]
        exact congrArg _ (enter_written _).symm
      · rw [Function.update_of_ne hu, Function.update_of_ne hu]
        by_cases hui : u = .worker i
        · subst hui
          rw [Function.update_self, hi]
          exact congrArg _ (enter_written _).symm
        · rw [Function.update_of_ne hui]
  · exact stdin_next h.input hg hserve fun i e hc =>
      not_read (h.traced.trodden (.worker i)) (fun e k htr => hq i _ e k htr (h.traced.fits (.worker i))) hc

theorem init_controller (C : ProcessCode ω Φ) (capacity : Nat) (stdin : Bytes) :
    (C.init capacity stdin).threads.loc .controller = (C.go .controller C.main.run .empty).1.enter := rfl

theorem init_worker (C : ProcessCode ω Φ) (capacity : Nat) (stdin : Bytes) (i : Nat) :
    (C.init capacity stdin).threads.loc (.worker i) = .absent := rfl

theorem accounted_init (A : Sys → Ret Val → Prop) (C : ProcessCode ω Φ) (capacity : Nat) (stdin : Bytes) :
    ∃ τ, C.Accounted A stdin (C.init capacity stdin) τ [] := by
  obtain ⟨σ, hσ, hsil⟩ := traced_init A True C capacity stdin
  have hemit : ∀ t m e f, (C.init capacity stdin).threads.loc t = .emit m e f → e = .lock := by
    intro t m e f h
    cases t with
    | controller =>
      rw [init_controller] at h
      exact enter_emit h
    | worker i =>
      rw [init_worker] at h
      cases h
  refine ⟨_, hσ, fun t => ?_, ⟨fun c t h => ?_, fun c t h => ?_⟩, fun t => ?_, ?_, fun t => ?_, ?_⟩
  · cases t with
    | controller =>
      rw [init_controller]
      exact enter_sound _
    | worker i =>
      rw [init_worker]
      rfl
  · rcases h with h | h <;> exact absurd h (Finset.notMem_empty t)
  · exact absurd h (Finset.notMem_empty t)
  · refine iff_of_false (fun h => by cases h) fun hi => ?_
    obtain ⟨m, e, f, he, hh⟩ := hi.1
    rw [hemit t m e f he] at hh
    cases hh
  · exact ⟨fun t m e f he => by rw [hemit t m e f he]; rfl, rfl, fun _ => rfl, fun t m e f h => by cases h⟩
  · cases t with
    | controller =>
      rw [init_controller, enter_written, if_pos rfl, emitsIn_silent hsil]
      rfl
    | worker i =>
      rw [init_worker]
      rfl
  · rw [if_pos rfl]
    exact walks_silent (τ := []) .nil hsil

/-- **The run lemma of the accounts**, for runs in which no call fails. -/
theorem accounted_of_reach (A : Sys → Ret Val → Prop) (hw : ∃ c k, C.worker.run = .call (.io c) k) (hq : C.Quiet A)
    (hC : ∀ s a, Cond s a → a.ok = true ∧ (Legal C s.threads a → Gives A C s.threads a)) {s : Hosted ω Φ}
    (h : Reach (C.system args size stdin) Cond s) : ∃ τ log, C.Accounted A stdin s τ log := by
  induction h with
  | init =>
    obtain ⟨τ, ht⟩ := accounted_init A C args.queueSize stdin
    exact ⟨τ, [], ht⟩
  | @step s s' a _ hc he ih =>
    obtain ⟨τ, log, ht⟩ := ih
    obtain ⟨hok, hA⟩ := hC s a hc
    obtain ⟨τ', ht'⟩ := ht.step hw hq he hok (hA (ProcessCode.step_spec he).2)
    exact ⟨τ', _, ht'⟩

/-! ### Runs in which calls may fail -/

/-- The workers read nothing, whatever their calls return. -/
def ProcessCode.Aside (C : ProcessCode ω Φ) : Prop :=
  ∀ i τ e k, C.Trod (.worker i) τ (.call (.io (.sys e)) k) → ∀ fd n, e ≠ .read fd n

/-- The threads are where their traces have led them, and the standard input was read by the controller. -/
structure ProcessCode.Fed (C : ProcessCode ω Φ) (stdin : Bytes) (s : Hosted ω Φ) (τ : Tid → ThreadTrace ω) : Prop where
  traced : C.Traced (fun _ _ => True) False s.threads τ
  input : Prog.Walks inputEnv stdin (τ .controller) s.stdin

/-- **The run lemma of the standard input**, for all runs. -/
theorem fed_of_reach (hw : ∃ c k, C.worker.run = .call (.io c) k) (hq : C.Aside) {s : Hosted ω Φ}
    (h : Reach (C.system args size stdin) Cond s) : ∃ τ, C.Fed stdin s τ := by
  refine h.inv (I := fun s => ∃ τ, C.Fed stdin s τ) ?_ ?_
  · obtain ⟨σ, hσ, hsil⟩ := traced_init (fun _ _ => True) False C args.queueSize stdin
    refine ⟨_, hσ, ?_⟩
    rw [if_pos rfl]
    exact walks_silent (τ := []) .nil hsil
  · rintro s a s' ⟨τ, ht⟩ - he
    obtain ⟨htr, hio⟩ := ProcessCode.step_spec he
    obtain ⟨τ', ht', hg⟩ := ht.traced.step hw htr hio (fun _ _ _ _ _ => trivial) nofun
    exact ⟨τ', ht', stdin_next ht.input hg (serves_of_step he) fun i e hc =>
      not_read (ht.traced.trodden (.worker i)) (fun e k => hq i _ e k) hc⟩

end MrLib
