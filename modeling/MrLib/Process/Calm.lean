import MrLib.Process.Accounts
import MrLib.Process.Poised
import MrLib.Protocol.Receive

/-!
# Runs in which no call fails

In such a run (`Calm`) the user's functions run as `user` says. What a thread has read, recorded and emitted is its `View`,
and `calmEnv` says what it may do and hear then. A process whose thread functions are totally correct in `calmEnv`
(`CalmCode`) has, in every state of such a run, the views that its threads' traces give: `CalmCode.ctl_done`,
`CalmCode.wk_done`.
-/

namespace MrLib

open Conc

variable {ω Φ : Type}

/-! ## The user's functions -/

/-- What a user's function emits when no emit fails. -/
def User.emits : User → List Msg
  | .ret _ => []
  | .emit m k => m :: (k 0).emits

/-- What it returns then. -/
def User.result : User → Int
  | .ret r => r
  | .emit _ k => (k 0).result

/-- A call of a user's function. -/
def Sys.isUser : Sys → Bool
  | .mapper _ | .reducer _ _ => true
  | _ => false

/-- No call fails in this step, and a user's function runs as `user` says. -/
structure Calm (C : ProcessCode ω Φ) (user : Sys → User) (s : Hosted ω Φ) (a : Act Tid Val) : Prop where
  ok : a.ok = true
  user : ∀ t r e, a = .ret t r → (runtime C.client).call (s.threads.loc t) = .ext e → e.isUser = true →
    r = .val (.user (user e))

/-- The turns of a schedule are such steps. -/
theorem calm_turn {C : ProcessCode ω Φ} {user : Sys → User} (s : Hosted ω Φ) (b : Turn)
    (hok : (C.turn user s b).ok = true) : Calm C user s (C.turn user s b) := by
  refine ⟨hok, fun t r e ha hc he => ?_⟩
  cases b with
  | fail u =>
    unfold ProcessCode.turn at hok
    cases hok
  | wake u w =>
    unfold ProcessCode.turn at ha
    cases ha
  | go u =>
    cases hcall : (runtime C.client).call (s.threads.loc u) with
    | ext e' =>
      simp only [ProcessCode.turn, hcall] at ha
      cases ha
      rw [hc] at hcall
      cases hcall
      cases e <;> first | rfl | cases he
    | cndWait c m =>
      simp only [ProcessCode.turn, hcall] at ha
      split at ha <;> cases ha
      rw [hc] at hcall
      cases hcall
    | _ =>
      simp only [ProcessCode.turn, hcall] at ha
      cases ha
      rw [hc] at hcall
      cases hcall

/-- A schedule in which no call fails is such a run. -/
theorem reach_calm {C : ProcessCode ω Φ} {user : Sys → User} {T : Lts (Hosted ω Φ) (Act Tid Val)} (Q : Hosted ω Φ → Prop)
    [DecidablePred Q] (ts : List Turn)
    (h : (playP T (fun _ a => a.ok) (C.turn user) T.init ts).any (fun s => Q s) = true) :
    ∃ s, Reach T (Calm C user) s ∧ Q s := by
  obtain ⟨s, hs, hq⟩ := (Option.any_eq_true _ _).mp h
  exact ⟨s, reach_playP_of calm_turn .init hs, of_decide_eq_true hq⟩

/-- The answer of a call of the system that does not fail. -/
structure Proper (user : Sys → User) (e : Sys) (r : Ret Val) : Prop where
  may : e.mayReturn (fun _ => .other) r = true
  ok : r ≠ .fail
  user : e.isUser = true → r = .val (.user (user e))

/-- An allocation of more than any object can have. -/
def Sys.huge : Sys → Prop
  | .malloc n | .realloc n => ptrdiffMax < n
  | _ => False

/-- The standard input after a call of the system. Only an allocation of too much is refused. -/
def calmSys (user : Sys → User) (stdin : Bytes) (e : Sys) (r : Ret Val) (stdin' : Bytes) : Prop :=
  (Proper user e r ∨ r = .fail ∧ e.huge) ∧ serve stdin e r = some stdin'

/-! ## Views -/

/-- What a thread has left to read, and has recorded and emitted; `astray` if it was to go on after something
undefined. -/
structure View (ω : Type) where
  stdin : Bytes
  events : List (Event ω)
  emits : List Msg
  astray : Bool

/-- The view of a thread that starts. -/
def View.start (stdin : Bytes) : View ω := ⟨stdin, [], [], false⟩

/-- What thread `t` may do and hear. Only the controller reads, only a worker emits, and the events recorded are in
`N`. -/
def calmEnv (user : Sys → User) (N : Event ω → Prop) (t : Tid) (v : View ω) (c : PCall ω) (r : PRet ω) (v' : View ω) :
    Prop :=
  match c with
  | .io (.log _ _) => r = .int 0 ∧ v' = v
  | .io (.writeN _ _) => False
  | .io (.sys e) => ∃ r0, r = .sys r0 ∧ (e = .stuck ∧ v' = { v with astray := true } ∨
      (t ≠ .controller → ∀ fd n, e ≠ .read fd n) ∧ ∃ st, calmSys user v.stdin e r0 st ∧ v' = { v with stdin := st })
  | .push _ | .close | .create _ => r = .int 0 ∧ v' = v
  | .pop => (∃ n x, r = .popped n x ∧ (n = 0 ∨ n = 1 ∧ x = none)) ∧ v' = v
  | .emit m => t ≠ .controller ∧ r = .int 0 ∧ v' = { v with emits := v.emits ++ [m] }
  | .join _ => (∃ c, r = .joined (some c)) ∧ v' = v
  | .share _ => r = .done ∧ v' = v
  | .note e => r = .done ∧ N e ∧ v' = { v with events := v.events ++ [e] }
  | .load x => (∃ n, r = .node n) ∧ N (.read x) ∧ v' = { v with events := v.events ++ [.read x] }

section

variable {C : ProcessCode ω Φ} {user : Sys → User} {N : Event ω → Prop} {t : Tid} {v v' : View ω} {τ : ThreadTrace ω}

theorem inputEnv_other {st st' : Bytes} {c : PCall ω} {r : PRet ω} (hc : ∀ e, c ≠ .io (.sys e)) :
    inputEnv st c r st' ↔ st' = st := by
  unfold inputEnv
  split
  · exact absurd rfl (hc _)
  · exact Iff.rfl

/-- What was read so far determines what is left. -/
theorem input_unique {st st1 st2 : Bytes} (h1 : Prog.Walks inputEnv st τ st1) (h2 : Prog.Walks inputEnv st τ st2) :
    st1 = st2 := by
  induction h1 generalizing st2 with
  | nil => exact (Prog.walks_nil.mp h2).symm
  | @snoc s' s'' τ c r _ he ih =>
    obtain ⟨s3, h3, he3⟩ := Prog.walks_snoc.mp h2
    obtain rfl := ih h3
    cases c with
    | io c =>
      cases c with
      | sys e =>
        obtain ⟨r1, rfl, h1⟩ := he
        obtain ⟨r2, hr, h2⟩ := he3
        cases hr
        exact Option.some.inj (h1.symm.trans h2)
      | _ =>
        rw [inputEnv_other (by simp)] at he he3
        rw [he, he3]
    | _ =>
      rw [inputEnv_other (by simp)] at he he3
      rw [he, he3]

/-- **A thread sees what its trace says.** -/
theorem Walks.view {stdin : Bytes} (h : Prog.Walks (calmEnv user N t) (.start stdin) τ v)
    (hf : ∀ x ∈ τ, x.1.Fits (Proper user) True x.2) :
    v.astray = false ∧ v.events = eventsIn τ ∧ v.emits = emitsIn τ ∧ (∀ e ∈ v.events, N e) ∧
      (t = .controller → v.emits = []) ∧ Prog.Walks inputEnv stdin τ v.stdin := by
  revert hf
  refine h.inv (I := fun τ v => (∀ x ∈ τ, x.1.Fits (Proper user) True x.2) → v.astray = false ∧
    v.events = eventsIn τ ∧ v.emits = emitsIn τ ∧ (∀ e ∈ v.events, N e) ∧ (t = .controller → v.emits = []) ∧
      Prog.Walks inputEnv stdin τ v.stdin) (fun _ => ⟨rfl, rfl, rfl, fun e h => absurd h List.not_mem_nil, fun _ => rfl, .nil⟩) ?_
  intro τ v c r v' ih he hf
  obtain ⟨h0, h1, h2, h3, h4, h5⟩ := ih fun x hx => hf x (List.mem_append_left _ hx)
  have hfc : c.Fits (Proper user) True r := hf (c, r) (by simp)
  have hev : eventsIn (τ ++ [(c, r)]) = eventsIn τ ++ c.event?.toList := by
    cases hc : c.event? <;> simp [eventsIn, hc]
  rw [hev, emitsIn_append]
  cases c with
  | io c =>
    cases c with
    | log level format =>
      obtain ⟨-, rfl⟩ := he
      exact ⟨h0, h1.trans (List.append_nil _).symm, h2.trans (List.append_nil _).symm, h3, h4, h5.snoc rfl⟩
    | writeN fd bs => exact he.elim
    | sys e =>
      obtain ⟨r0, rfl, hs⟩ := he
      obtain ⟨r1, hr1, hp⟩ := hfc
      cases hr1
      rcases hs with ⟨rfl, -⟩ | ⟨-, st, hst, rfl⟩
      · cases hp.may
      · exact ⟨h0, h1.trans (List.append_nil _).symm, h2.trans (List.append_nil _).symm, h3, h4,
          h5.snoc ⟨r0, rfl, hst.2⟩⟩
  | emit m =>
    obtain ⟨ht, -, rfl⟩ := he
    exact ⟨h0, h1.trans (List.append_nil _).symm, congrArg (· ++ [m]) h2, h3, fun h => absurd h ht, h5.snoc rfl⟩
  | note e =>
    obtain ⟨-, hN, rfl⟩ := he
    refine ⟨h0, congrArg (· ++ [e]) h1, h2.trans (List.append_nil _).symm, fun x hx => ?_, h4, h5.snoc rfl⟩
    rcases List.mem_append.mp hx with hx | hx
    · exact h3 x hx
    · rw [List.mem_singleton.mp hx]
      exact hN
  | load x =>
    obtain ⟨-, hN, rfl⟩ := he
    refine ⟨h0, congrArg (· ++ [.read x]) h1, h2.trans (List.append_nil _).symm, fun x hx => ?_, h4, h5.snoc rfl⟩
    rcases List.mem_append.mp hx with hx | hx
    · exact h3 x hx
    · rw [List.mem_singleton.mp hx]
      exact hN
  | push _ | close | create _ | pop | join _ | share _ =>
    obtain ⟨-, rfl⟩ := he
    exact ⟨h0, h1.trans (List.append_nil _).symm, h2.trans (List.append_nil _).symm, h3, h4, h5.snoc rfl⟩

/-- What is legal along the trace of `t`: no call has failed, and the reads of the controller were served. -/
def CalmTrace (user : Sys → User) (t : Tid) (stdin : Bytes) (τ : ThreadTrace ω) : Prop :=
  (∀ x ∈ τ, x.1.Fits (Proper user) True x.2) ∧ (t = .controller → ∃ st, Prog.Walks inputEnv stdin τ st)

theorem CalmTrace.init {stdin : Bytes} {x : PCall ω × PRet ω} (h : CalmTrace user t stdin (τ ++ [x])) :
    CalmTrace user t stdin τ := by
  refine ⟨fun y hy => h.1 y (List.mem_append_left _ hy), fun ht => ?_⟩
  obtain ⟨st, hst⟩ := h.2 ht
  obtain ⟨st', hst', -⟩ := Prog.walks_snoc.mp hst
  exact ⟨st', hst'⟩

/-- **The answer that a thread got** is one that `calmEnv` gives. -/
theorem CalmTrace.answer {stdin : Bytes} {c : PCall ω} {r : PRet ω}
    (hw : Prog.Walks (calmEnv user N t) (.start stdin) τ v) (h : CalmTrace user t stdin (τ ++ [(c, r)]))
    (hex : ∃ r v', calmEnv user N t v c r v') : ∃ v', calmEnv user N t v c r v' := by
  have hview := (Walks.view hw h.init.1).2.2.2.2.2
  obtain ⟨hf, hin⟩ := h
  have hfc : c.Fits (Proper user) True r := hf (c, r) (by simp)
  obtain ⟨r1, v1, h1⟩ := hex
  cases c with
  | io c =>
    cases c with
    | log level format =>
      obtain ⟨n, rfl, hn⟩ := hfc
      rw [hn trivial]
      exact ⟨v, rfl, rfl⟩
    | writeN fd bs => exact h1.elim
    | sys e =>
      obtain ⟨r0, rfl, hp⟩ := hfc
      obtain ⟨r2, -, hs⟩ := h1
      rcases hs with ⟨rfl, -⟩ | ⟨hread, -⟩
      · exact absurd hp.may (by simp [Sys.mayReturn])
      · by_cases ht : t = .controller
        · obtain ⟨st, hst⟩ := hin ht
          obtain ⟨st1, hst1, r3, hr3, hserve⟩ := Prog.walks_snoc.mp hst
          cases hr3
          obtain rfl := input_unique hst1 hview
          exact ⟨_, r0, rfl, .inr ⟨hread, st, ⟨.inl hp, hserve⟩, rfl⟩⟩
        · refine ⟨_, r0, rfl, .inr ⟨hread, v.stdin, ⟨.inl hp, ?_⟩, rfl⟩⟩
          unfold serve
          split
          · exact absurd rfl (hread ht _ _)
          · rw [if_pos hp.may]
  | emit m =>
    obtain ⟨n, rfl, hn⟩ := hfc
    rw [hn trivial]
    exact ⟨_, h1.1, rfl, rfl⟩
  | note e =>
    obtain rfl := hfc
    exact ⟨_, rfl, h1.2.1, rfl⟩
  | load x => exact ⟨_, hfc, h1.2.1, rfl⟩
  | push _ | close | create _ =>
    obtain ⟨n, rfl, -, hn⟩ := hfc
    rw [hn trivial]
    exact ⟨v, rfl, rfl⟩
  | pop =>
    obtain ⟨n, x, rfl, hx, hn⟩ := hfc
    refine ⟨v, ⟨n, x, rfl, ?_⟩, rfl⟩
    rcases hn trivial with rfl | rfl
    · exact .inl rfl
    · exact .inr ⟨rfl, hx.resolve_left (by decide)⟩
  | join i =>
    obtain ⟨x, rfl, hx⟩ := hfc
    obtain ⟨k, rfl⟩ := Option.ne_none_iff_exists'.mp (hx trivial)
    exact ⟨v, ⟨k, rfl⟩, rfl⟩
  | share heap =>
    obtain rfl := hfc
    exact ⟨v, rfl, rfl⟩

theorem calmTrace_worker {i : Nat} {stdin : Bytes} (h : ∀ x ∈ τ, x.1.Fits (Proper user) True x.2) :
    CalmTrace user (.worker i) stdin τ := ⟨h, fun ht => by cases ht⟩

/-- **A thread function that is correct in `calmEnv`** is correct from where the thread has come to. -/
theorem Trod.calm {stdin : Bytes} {E : Except Int Φ → View ω → Prop} {p : ThreadProg ω (Except Int Φ)}
    (hstart : (C.start t).Wp (calmEnv user N t) E (.start stdin))
    (hbody : ∀ ph v, E (.ok ph) v → (C.body ph).run.Wp (calmEnv user N t) E v) (h : C.Trod t τ p)
    (hl : CalmTrace user t stdin τ) :
    ∃ v : View ω, v.astray = false ∧ v.events = eventsIn τ ∧ v.emits = emitsIn τ ∧ (∀ e ∈ v.events, N e) ∧
      (t = .controller → v.emits = []) ∧ Prog.Walks inputEnv stdin τ v.stdin ∧ p.Wp (calmEnv user N t) E v := by
  obtain ⟨v, hw, hp⟩ := Prog.Trod.wp hstart hbody (fun _ _ => CalmTrace.init)
    (fun _ _ _ _ hw hl hex => CalmTrace.answer hw hl hex) h hl
  obtain ⟨h0, h1, h2, h3, h4, h5⟩ := Walks.view hw hl.1
  exact ⟨v, h0, h1, h2, h3, h4, h5, hp⟩

end

/-! ## The code of a process -/

/-- **What the code of a process has to satisfy** in runs in which no call fails: how its threads end, or come to a
cut. -/
structure CalmCode (C : ProcessCode ω Φ) (user : Sys → User) (N : Event ω → Prop) (stdin : Bytes) where
  ctl : Except Int Φ → View ω → Prop
  wk : Except Int Φ → View ω → Prop
  main : C.main.run.Wp (calmEnv user N .controller) ctl (.start stdin)
  ctlBody : ∀ ph v, ctl (.ok ph) v → (C.body ph).run.Wp (calmEnv user N .controller) ctl v
  first : ∃ c k, C.worker.run = .call (.io c) k
  worker : ∀ i, C.worker.run.Wp (calmEnv user N (.worker i)) wk (.start [])
  wkBody : ∀ i ph v, wk (.ok ph) v → (C.body ph).run.Wp (calmEnv user N (.worker i)) wk v

section

variable {C : ProcessCode ω Φ} {user : Sys → User} {N : Event ω → Prop} {stdin : Bytes} {args : PoolArgs} {size : Nat}
  {s : Hosted ω Φ} {τ : Tid → ThreadTrace ω} {log : List (Tid × Msg)}

theorem CalmCode.quiet (K : CalmCode C user N stdin) : C.Quiet (Proper user) := by
  intro i τ e k h hf
  obtain ⟨v, -, -, -, -, -, -, hp⟩ := Trod.calm (K.worker i) (K.wkBody i) h (calmTrace_worker hf)
  obtain ⟨⟨r, v', r0, -, hs⟩, -⟩ := hp
  rcases hs with ⟨rfl, -⟩ | ⟨hread, -⟩
  · exact fun fd n h => by cases h
  · exact hread (by simp)

/-- **The accounts of a calm run.** -/
theorem CalmCode.accounted (K : CalmCode C user N stdin) (h : Reach (C.system args size stdin) (Calm C user) s) :
    ∃ τ log, C.Accounted (Proper user) stdin s τ log := by
  refine accounted_of_reach (Proper user) K.first K.quiet (fun s a hc => ⟨hc.ok, fun hleg t r e ha he => ?_⟩) h
  refine ⟨hleg t r e ha he, fun hr => ?_, hc.user t r e ha he⟩
  have := hc.ok
  rw [ha, hr] at this
  cases this

/-- What the controller has seen when it has come to `p`. -/
theorem CalmCode.ctl_view (K : CalmCode C user N stdin) (h : C.Accounted (Proper user) stdin s τ log)
    {p : ThreadProg ω (Except Int Φ)} (hp : C.Trod .controller (τ .controller) p) :
    ∃ v : View ω, v.astray = false ∧ v.stdin = s.stdin ∧ v.events = eventsBy .controller s.threads.mem.user.events ∧
      emitsIn (τ .controller) = [] ∧ (∀ e ∈ v.events, N e) ∧ p.Wp (calmEnv user N .controller) K.ctl v := by
  obtain ⟨v, h0, h1, h2, h3, h4, h5, h6⟩ :=
    Trod.calm K.main K.ctlBody hp ⟨h.traced.fits .controller, fun _ => ⟨_, h.input⟩⟩
  exact ⟨v, h0, input_unique h5 h.input, h1.trans (h.traced.events _).symm, h2 ▸ h4 rfl, h3, h6⟩

/-- And a worker. -/
theorem CalmCode.wk_view (K : CalmCode C user N stdin) (h : C.Accounted (Proper user) stdin s τ log) {i : Nat}
    {p : ThreadProg ω (Except Int Φ)} (hp : C.Trod (.worker i) (τ (.worker i)) p) :
    ∃ v : View ω, v.astray = false ∧ v.events = eventsBy (.worker i) s.threads.mem.user.events ∧
      v.emits = emitsIn (τ (.worker i)) ∧ (∀ e ∈ v.events, N e) ∧ p.Wp (calmEnv user N (.worker i)) K.wk v := by
  obtain ⟨v, h0, h1, h2, h3, -, -, h6⟩ :=
    Trod.calm (K.worker i) (K.wkBody i) hp (calmTrace_worker (h.traced.fits _))
  exact ⟨v, h0, h1.trans (h.traced.events _).symm, h2, h3, h6⟩

/-- A thread that was created has come to some program. -/
theorem At.trod {t : Tid} {τ : ThreadTrace ω} {l : TLoc (Option ω) 1 (PFrame ω (Except Int Φ))} (h : C.At t τ l)
    (hl : l ≠ .absent) : ∃ p, C.Trod t τ p := by
  cases l with
  | absent => exact absurd rfl hl
  | done c => exact ⟨_, h⟩
  | log l f | queue q f | emit m e f => exact ⟨_, h.1⟩
  | own f =>
    rcases h with ⟨-, hp⟩ | ⟨hp, -⟩
    · exact hp
    · exact ⟨_, hp⟩

theorem mem_eventsBy {t : Tid} {e : Event ω} {es : List (Tid × Event ω)} : e ∈ eventsBy t es ↔ (t, e) ∈ es := by
  simp [eventsBy]

/-- **Every event is one of `N`.** -/
theorem CalmCode.noted (K : CalmCode C user N stdin) (h : C.Accounted (Proper user) stdin s τ log) {t : Tid}
    {e : Event ω} (he : (t, e) ∈ s.threads.mem.user.events) : N e := by
  have he' : e ∈ eventsBy t s.threads.mem.user.events := mem_eventsBy.mpr he
  have hl : s.threads.loc t ≠ .absent := fun hl => by
    have hnil := h.traced.trodden t
    rw [hl] at hnil
    have hnil : τ t = [] := hnil
    rw [h.traced.events t, hnil] at he'
    cases he'
  obtain ⟨p, hp⟩ := At.trod (h.traced.trodden t) hl
  cases t with
  | controller =>
    obtain ⟨v, -, -, hv, -, hN, -⟩ := K.ctl_view h hp
    exact hN e (hv ▸ he')
  | worker i =>
    obtain ⟨v, -, hv, -, hN, -⟩ := K.wk_view h hp
    exact hN e (hv ▸ he')

/-- **How the controller has ended.** -/
theorem CalmCode.ctl_done (K : CalmCode C user N stdin) (h : C.Accounted (Proper user) stdin s τ log) {code : Int}
    (hd : s.threads.loc .controller = .done code) :
    ∃ v : View ω, v.astray = false ∧ v.stdin = s.stdin ∧ v.events = eventsBy .controller s.threads.mem.user.events ∧
      emitsIn (τ .controller) = [] ∧ K.ctl (.error code) v := by
  have hat := h.traced.trodden .controller
  rw [hd] at hat
  obtain ⟨v, h0, h1, h2, h3, -, h5⟩ := K.ctl_view h hat
  exact ⟨v, h0, h1, h2, h3, h5⟩

/-- **How a worker has ended.** -/
theorem CalmCode.wk_done (K : CalmCode C user N stdin) (h : C.Accounted (Proper user) stdin s τ log) {i : Nat}
    {code : Int} (hd : s.threads.loc (.worker i) = .done code) :
    ∃ v : View ω, v.astray = false ∧ v.events = eventsBy (.worker i) s.threads.mem.user.events ∧
      v.emits = emitsIn (τ (.worker i)) ∧ K.wk (.error code) v := by
  have hat := h.traced.trodden (.worker i)
  rw [hd] at hat
  obtain ⟨v, h0, h1, h2, -, h4⟩ := K.wk_view h hat
  exact ⟨v, h0, h1, h2, h4⟩

end

end MrLib
