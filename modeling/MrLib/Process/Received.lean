import MrLib.Process.Calls
import MrLib.Process.MapperOutput
import MrLib.Process.ReducerOutput

/-!
# What a process that succeeds has received

Calls may fail here, and the user's functions may do what they like. A receiver gives up when a call fails (`Strict`), and
a controller whose receiver has given up returns `EXIT_FAILURE`. So a process that returns `EXIT_SUCCESS` has received all
that its standard input says, if that is a stream of lines (`mapper_received`) or of pairs (`reducer_received`).

What a thread hears is read off its trace: `hearEnv f` follows the standard input and what `f` says of the events.
-/

namespace MrLib

open Conc

variable {ω α β γ Φ : Type}

/-! ## The receivers give up -/

/-- The answers after which a receiver goes on: `r'` in place of `r`. `malloc(0)` may return `NULL`. -/
def Stands (c : Io) (r r' : IoRet) : Prop :=
  (∃ e, c = .sys e) ∧ (r = .sys .fail → ∃ n, c = .sys (.uninit n)) ∧ r' = r ∨
    c = .sys (.malloc 0) ∧ r = .sys .fail ∧ r' = .sys (.val (.bytes []))

/-- The code ends with `F` when a call has failed. -/
abbrev Strict (F : α → Prop) (p : IoProg α) : Prop := Prog.GivesUp Stands F p

section Receivers

variable {F : α → Prop}

theorem stands_sys {e : Sys} {r : IoRet} (hr : r ≠ .sys .fail) : Stands (.sys e) r r :=
  .inl ⟨⟨e, rfl⟩, fun h => absurd h hr, rfl⟩

/-- An error path. -/
theorem failing_logged {a : α} (ha : F a) (format : String) :
    (do mrLogError format; return a : IoProg α).Calls (fun _ => True) F := ⟨trivial, fun r => by cases r <;> exact ha⟩

theorem strict_uninit {n : Nat} {k : Bytes → IoProg α} (hk : ∀ block, Strict F (k block)) : Strict F (uninit n >>= k) := by
  intro r
  refine .inr ⟨⟨r, .inl ⟨⟨_, rfl⟩, fun _ => ⟨n, rfl⟩, rfl⟩, rfl⟩, ?_⟩
  dsimp only
  split <;> exact hk _

theorem strict_malloc {n : Nat} {k : Option Bytes → IoProg α}
    (h : (k none).Calls (fun _ => True) F ∨ n = 0 ∧ k none = k (some [])) (hk : ∀ block, Strict F (k (some block))) :
    Strict F (malloc n >>= k) := by
  have hnone : Strict F (k none) := by
    rcases h with h | ⟨-, h⟩
    · exact h.givesUp
    · rw [h]
      exact hk []
  intro r
  by_cases hr : r = .sys .fail
  · subst hr
    rcases h with h | ⟨rfl, h⟩
    · exact .inl h
    · exact .inr ⟨⟨.sys (.val (.bytes [])), .inr ⟨rfl, rfl, rfl⟩, h⟩, hnone⟩
  · refine .inr ⟨⟨r, stands_sys hr, rfl⟩, ?_⟩
    dsimp only
    split
    · exact hk _
    · exact hnone

theorem strict_readN {fd n : Nat} {k : Option Bytes → IoProg α} (h : (k none).Calls (fun _ => True) F)
    (hk : ∀ bs, Strict F (k (some bs))) : Strict F (readN fd n >>= k) := by
  have hgo : ∀ fuel m, Strict (· = none) (readN.go fd fuel m) := by
    intro fuel
    induction fuel with
    | zero => exact fun m => trivial
    | succ fuel ih =>
      intro m
      unfold readN.go
      split
      · exact trivial
      · intro r
        dsimp only
        split
        · refine .inr ⟨⟨_, stands_sys (by simp), rfl⟩, ?_⟩
          split
          · exact trivial
          · exact (ih _).bind (fun a ha => congrArg (Option.map _) ha) fun _ => trivial
        · exact .inl rfl
  refine (hgo n n).bind ?_ fun x => ?_
  · rintro _ rfl
    exact h
  · cases x with
    | none => exact h.givesUp
    | some bs => exact hk bs

variable (fd : Nat)

theorem strict_receiveValue (n : Nat) : Strict (· = none) (receiveValue fd n) := by
  refine strict_malloc ?_ fun block => ?_
  · by_cases hn : 0 < n
    · simp only [hn, if_true]
      exact .inl (failing_logged (by rfl) _)
    · exact .inr ⟨by omega, by simp [hn]⟩
  · dsimp only
    split
    · exact strict_readN (failing_logged (by rfl) _) fun bs => trivial
    · exact trivial

/-- For an empty token a `malloc` that fails leads to `NULL`. -/
theorem strict_receiveToken (n : Nat) : Strict (fun token => token = none ∨ token = some none) (receiveToken fd n) := by
  refine strict_malloc (.inl ?_) fun block => ?_
  · dsimp only
    split
    · exact failing_logged (.inl rfl) _
    · exact .inr rfl
  · dsimp only
    split
    · exact strict_readN (failing_logged (.inl rfl) _) fun bs => trivial
    · exact trivial

/-- What the receiver of a pair returns when a call has failed: `NULL` for an empty token, or it fails. -/
def RecvPair.Gone (x : RecvPair) : Prop := x = .failed ∨ ∃ value, x = .pair none value

theorem strict_receivePair : Strict RecvPair.Gone (receivePairFromMapperFd fd) := by
  have value : ∀ (token : Option Bytes) (n : Nat), (receiveValue fd n).Calls (fun _ => True) Any := fun token n =>
    (serving_receiveValue (ω := Unit) fd n).mono (fun _ _ => trivial) fun _ h => h
  refine strict_uninit fun junk => strict_readN (failing_logged (.inl rfl) _) fun bs => ?_
  rcases bs with _ | ⟨b, bs⟩
  · exact trivial
  · refine (strict_receiveToken fd _).bind ?_ fun token => ?_
    · rintro _ (rfl | rfl)
      · exact .inl rfl
      · refine (value none _).bind fun x _ => ?_
        cases x with
        | none => exact .inl rfl
        | some v => exact .inr ⟨v, rfl⟩
    · cases token with
      | none => exact trivial
      | some token =>
        refine (strict_receiveValue fd _).bind (fun _ h => ?_) fun x => by cases x <;> exact trivial
        subst h
        exact .inl rfl

theorem strict_receiveLineContent (n : Nat) : Strict (· = none) (receiveLineContent fd n) := by
  refine strict_malloc (.inl (failing_logged (by rfl) _)) fun block => ?_
  dsimp only
  split
  · exact strict_readN (failing_logged (by rfl) _) fun bs => trivial
  · exact trivial

theorem strict_receiveLineHeader (receiver : Receiver) : Strict (· = .failed) (receiveLineHeader fd receiver) := by
  refine strict_uninit fun junk => strict_readN (failing_logged (by rfl) _) fun bs => ?_
  dsimp only
  split
  · exact trivial
  refine strict_malloc (.inl (failing_logged (by rfl) _)) fun block => ?_
  refine (strict_receiveLineContent fd _).bind ?_ fun line => ?_
  · rintro _ rfl
    exact rfl
  · cases line <;> exact trivial

theorem strict_receiveLine (receiver : Receiver) : Strict (· = .failed) (receiveLineFromMainFd fd receiver) := by
  unfold receiveLineFromMainFd
  split
  · refine strict_uninit fun junk => strict_readN (failing_logged (by rfl) _) fun bs => ?_
    rcases bs with _ | ⟨b, bs⟩
    · exact trivial
    · refine strict_malloc (.inl (failing_logged (by rfl) _)) fun block => ?_
      exact strict_readN (failing_logged (by rfl) _) fun name => strict_receiveLineHeader fd _
  · exact strict_receiveLineHeader fd receiver

end Receivers

/-! ## What a thread hears -/

/-- Sequential code whose calls may fail, with what is left of the standard input. -/
def failIo (stdin : Bytes) (c : Io) (r : IoRet) (stdin' : Bytes) : Prop :=
  match c with
  | .sys e => ∃ r0, r = .sys r0 ∧ serve stdin e r0 = some stdin'
  | _ => stdin' = stdin

/-- **A receiver that is right in a stream** is right in a process, or it has given up. -/
theorem Strict.safe {F : α → Prop} {R : α → Bytes → Prop} {p : IoProg α} {s : Bytes} (hp : Strict F p)
    (h : p.Wp StreamEnv R s) : Prog.Safe failIo (fun _ => True) p (fun a s' => F a ∨ R a s') s := by
  refine h.givesUp ?_ hp
  rintro s c r r' s' he (⟨⟨e, rfl⟩, hfail, rfl⟩ | ⟨rfl, rfl, rfl⟩) hex
  · obtain ⟨r0, rfl, hs⟩ := he
    cases e with
    | read fd n =>
      have hm := mayReturn_of_serve hs
      rcases r0 with _ | _ | _ | x
      · cases hm
      · obtain ⟨n, hn⟩ := hfail rfl
        cases hn
      · cases hm
      · cases x with
        | bytes bs => exact serve_read.mp hs
        | _ => cases hm
    | uninit n =>
      have hm := mayReturn_of_serve hs
      obtain rfl := serve_same (by simp) hs
      rcases r0 with _ | _ | _ | x
      · cases hm
      · cases hm
      · cases hm
      · cases x with
        | bytes block => exact ⟨by simpa [Sys.mayReturn] using hm, rfl⟩
        | _ => cases hm
    | malloc n =>
      have hm := mayReturn_of_serve hs
      obtain rfl := serve_same (by simp) hs
      rcases r0 with _ | _ | _ | x
      · cases hm
      · obtain ⟨n, hn⟩ := hfail rfl
        cases hn
      · cases hm
      · cases x with
        | bytes block =>
          simp only [Sys.mayReturn, decide_eq_true_eq] at hm
          exact ⟨hm.2, hm.1, rfl⟩
        | _ => cases hm
    | realloc n =>
      have hm := mayReturn_of_serve hs
      obtain rfl := serve_same (by simp) hs
      rcases r0 with _ | _ | _ | x
      · simp only [Sys.mayReturn, decide_eq_true_eq] at hm
        exact ⟨hm, rfl⟩
      · obtain ⟨n, hn⟩ := hfail rfl
        cases hn
      · cases hm
      · cases hm
    | _ =>
      obtain ⟨r1, s1, h1⟩ := hex
      cases r1 <;> exact h1.elim
  · obtain ⟨r0, hr0, hs⟩ := he
    cases hr0
    obtain rfl := serve_same (by simp) hs
    exact ⟨Nat.zero_le _, rfl, rfl⟩

/-- The standard input along the calls of a thread, and what `f` says of the events. -/
def hearEnv (f : Event ω → List β) (v : Bytes × List β) (c : PCall ω) (r : PRet ω) (v' : Bytes × List β) : Prop :=
  inputEnv v.1 c r v'.1 ∧ v'.2 = v.2 ++ c.event?.toList.flatMap f

theorem walks_hear {f : Event ω → List β} {stdin stdin' : Bytes} {τ : ThreadTrace ω}
    (h : Prog.Walks inputEnv stdin τ stdin') :
    Prog.Walks (hearEnv f) (stdin, []) τ (stdin', (eventsIn τ).flatMap f) := by
  induction h with
  | nil => exact .nil
  | @snoc s' s'' τ c r _ he ih =>
    refine .snoc ih ⟨he, ?_⟩
    cases hc : c.event? <;> simp [eventsIn, hc]

/-- A call that neither reads nor says anything. -/
structure PCall.Idle (f : Event ω → List β) (c : PCall ω) : Prop where
  read : ∀ fd n, c ≠ .io (.sys (.read fd n))
  event : ∀ e, c.event? = some e → f e = []

/-- `f` says nothing of what every thread records. -/
structure Aloof (f : Event ω → List β) : Prop where
  read : ∀ x, f (.read x) = []
  called : ∀ x e, f (.called x e) = []
  failed : ∀ x, f (.failed x) = []
  released : ∀ x, f (.released x) = []
  left : ∀ r, f (.left r) = []

section Rules

variable {f : Event ω → List β} {J : α → Prop} {K : Int → Prop} {Q : Except Int α → Bytes × List β → Prop}
  {v : Bytes × List β}

theorem idle_of_no_event {c : PCall ω} (hr : ∀ fd n, c ≠ .io (.sys (.read fd n))) (he : c.event? = none) : c.Idle f :=
  ⟨hr, fun e h => by rw [he] at h; cases h⟩

theorem idle_note {e : Event ω} (he : f e = []) : (PCall.note e).Idle f :=
  ⟨by simp, fun _ h => by cases h; exact he⟩

theorem common_idle (hf : Aloof f) (hk : K exitFailure) : Common (PCall.Idle f) K where
  log _ _ := idle_of_no_event (by simp) rfl
  stuck := idle_of_no_event (by simp) rfl
  push _ := idle_of_no_event (by simp) rfl
  pop := idle_of_no_event (by simp) rfl
  close := idle_of_no_event (by simp) rfl
  emit _ := idle_of_no_event (by simp) rfl
  join _ := idle_of_no_event (by simp) rfl
  share _ := idle_of_no_event (by simp) rfl
  load x := ⟨by simp, fun _ h => by cases h; exact hf.read x⟩
  called x e := idle_note (hf.called x e)
  failed x := idle_note (hf.failed x)
  released x := idle_note (hf.released x)
  left r := idle_note (hf.left r)
  failure := hk

theorem setsUp_idle : SetsUp (PCall.Idle f) where
  malloc _ := idle_of_no_event (by simp) rfl
  mtxInit := idle_of_no_event (by simp) rfl
  cndInit := idle_of_no_event (by simp) rfl

theorem PCall.Idle.same {c : PCall ω} {r : PRet ω} {v' : Bytes × List β} (hc : c.Idle f) (h : hearEnv f v c r v') :
    v' = v := by
  obtain ⟨h1, h2⟩ := h
  have hnil : c.event?.toList.flatMap f = [] := by
    cases he : c.event? with
    | none => rfl
    | some e => simp [hc.event e he]
  rw [hnil, List.append_nil] at h2
  refine Prod.ext ?_ h2
  unfold inputEnv at h1
  split at h1
  · rename_i e
    obtain ⟨r0, -, hs⟩ := h1
    exact serve_same (fun fd n he => hc.read fd n (by rw [he])) hs
  · exact h1

/-- Idle code leaves everything as it is. -/
theorem OnlyCalls.hear {p : Th ω α} (h : OnlyCalls (PCall.Idle f) J K p) (hQ : ∀ x, Leaving J K x → Q x v) :
    Prog.Safe (hearEnv f) (fun _ => True) p.run Q v :=
  Prog.Calls.safe (fun _ _ _ hc he => hc.same he) trivial h hQ

theorem hear_bind {p : Th ω γ} {k : γ → Th ω α} (h : Prog.Safe (hearEnv f) (fun _ => True) p.run (fun x v' =>
      match x with
      | .ok b => Prog.Safe (hearEnv f) (fun _ => True) (k b).run Q v'
      | .error c => Q (.error c) v') v) : Prog.Safe (hearEnv f) (fun _ => True) (p >>= k).run Q v := by
  change Prog.Safe (hearEnv f) (fun _ => True) (p.run >>= _ : ThreadProg ω (Except Int α)) Q v
  refine Prog.safe_bind (h.mono fun x v' _ hx => ?_)
  cases x with
  | ok b => exact hx
  | error c => exact ⟨trivial, hx⟩

/-- Idle code, and what follows it. -/
theorem hear_idle {p : Th ω γ} {k : γ → Th ω α} {J : γ → Prop} (hp : OnlyCalls (PCall.Idle f) J K p)
    (hk : ∀ b, J b → Prog.Safe (hearEnv f) (fun _ => True) (k b).run Q v) (hQ : ∀ c, K c → Q (.error c) v) :
    Prog.Safe (hearEnv f) (fun _ => True) (p >>= k).run Q v := by
  refine hear_bind (hp.hear fun x hx => ?_)
  cases x with
  | ok b => exact hk b hx
  | error c => exact hQ c hx

/-- Something is recorded. -/
theorem hear_note {e : Event ω} {k : Unit → Th ω α}
    (h : Prog.Safe (hearEnv f) (fun _ => True) (k ()).run Q (v.1, v.2 ++ f e)) :
    Prog.Safe (hearEnv f) (fun _ => True) (note e >>= k).run Q v := by
  refine ⟨trivial, fun r v' he => ?_⟩
  obtain ⟨h1, h2⟩ := he
  have hv : v' = (v.1, v.2 ++ f e) := Prod.ext h1 (by simpa [PCall.event?] using h2)
  rw [hv]
  exact h

/-- Sequential code. -/
theorem hear_io {p : IoProg γ} {k : γ → Th ω α} (h : Prog.Safe failIo (fun _ => True) p (fun b s =>
      Prog.Safe (hearEnv f) (fun _ => True) (k b).run Q (s, v.2)) v.1) :
    Prog.Safe (hearEnv f) (fun _ => True) ((liftM (inThread p : ThreadProg ω γ) : Th ω γ) >>= k).run Q v := by
  obtain ⟨s, b⟩ := v
  have run : ∀ {p : IoProg γ} {s : Bytes} {R : γ → Bytes → Prop}, Prog.Safe failIo (fun _ => True) p R s →
      Prog.Safe (hearEnv f) (fun _ => True) (inThread p : ThreadProg ω γ) (fun a v => R a v.1 ∧ v.2 = b) (s, b) := by
    intro p
    induction p with
    | ret a => exact fun h => ⟨trivial, h.2, rfl⟩
    | call c k ih =>
      intro s R h
      rw [inThread]
      refine ⟨trivial, fun r v' he => ?_⟩
      obtain ⟨h1, h2⟩ := he
      have hv : v' = (v'.1, b) := Prod.ext rfl (by simpa [PCall.event?] using h2)
      have hio : ∀ {r : IoRet}, (∀ e, c = .sys e → ∃ r0, r = .sys r0 ∧ serve s e r0 = some v'.1) →
          Prog.Safe (hearEnv f) (fun _ => True) (inThread (k r) : ThreadProg ω γ) (fun a v => R a v.1 ∧ v.2 = b) v' := by
        intro r hr
        rw [hv]
        refine ih r (h.2 r v'.1 ?_)
        cases c with
        | sys e => exact hr e rfl
        | _ => exact h1
      cases c with
      | sys e =>
        obtain ⟨r0, rfl, hs⟩ := h1
        exact hio fun e' he' => by cases he'; exact ⟨r0, rfl, hs⟩
      | _ =>
        dsimp only
        split <;> exact hio fun e he => by cases he
  refine hear_bind ?_
  change Prog.Safe (hearEnv f) (fun _ => True) ((inThread p : ThreadProg ω γ) >>= fun a => Prog.ret (Except.ok a)) _ (s, b)
  refine Prog.safe_bind ((run h).mono fun a v' _ ha => ⟨trivial, ?_⟩)
  obtain ⟨s', b'⟩ := v'
  obtain ⟨h1, rfl⟩ := ha
  exact h1

end Rules

/-! ## A process -/

/-- **What the controller of a process has heard** when it comes to a cut, and when it ends. The workers neither read nor
say anything. -/
structure ProcessCode.Hears (C : ProcessCode ω Φ) (f : Event ω → List β) (stdin : Bytes) where
  ctl : Φ → Bytes × List β → Prop
  exit : Int → Bytes × List β → Prop
  wk : Φ → Prop
  main : Prog.Safe (hearEnv f) (fun _ => True) C.main.run (Prog.Ends ctl exit) (stdin, [])
  ctlBody : ∀ ph v, ctl ph v → Prog.Safe (hearEnv f) (fun _ => True) (C.body ph).run (Prog.Ends ctl exit) v
  first : ∃ c k, C.worker.run = .call (.io c) k
  worker : OnlyCalls (PCall.Idle f) wk Any C.worker
  wkBody : ∀ ph, wk ph → OnlyCalls (PCall.Idle f) wk Any (C.body ph)

section Process

variable {C : ProcessCode ω Φ} {f : Event ω → List β} {stdin : Bytes} {args : PoolArgs} {size : Nat}
  {Cond : Hosted ω Φ → Act Tid Val → Prop} {s : Hosted ω Φ}

theorem ProcessCode.Hears.worker_calls (H : C.Hears f stdin) {i : Nat} {τ : ThreadTrace ω}
    {p : ThreadProg ω (Except Int Φ)} (h : C.Trod (.worker i) τ p) :
    p.Calls (PCall.Idle f) (Prog.Onward H.wk) ∧ ∀ x ∈ τ, x.1.Idle f := by
  have onward : ∀ {g : Th ω Φ}, OnlyCalls (PCall.Idle f) H.wk Any g →
      g.run.Calls (PCall.Idle f) (Prog.Onward H.wk) := fun hg => by
    refine hg.mono (fun _ h => h) ?_
    rintro _ hx ph rfl
    exact hx
  exact h.calls (onward H.worker) fun ph hph => onward (H.wkBody ph hph)

/-- **The controller has heard this when it ends.** -/
theorem ProcessCode.Hears.done (H : C.Hears f stdin) (h : Reach (C.system args size stdin) Cond s) {c : Int}
    (hd : s.threads.loc .controller = .done c) :
    H.exit c (s.stdin, s.threads.mem.user.events.flatMap fun x => f x.2) := by
  have haside : C.Aside := fun i τ e k ht fd n he => by
    have hidle := (H.worker_calls ht).1.1
    exact hidle.read fd n (by rw [he])
  obtain ⟨τ, ht⟩ := fed_of_reach H.first haside h
  have hat := ht.traced.trodden .controller
  rw [hd] at hat
  have hpost := (Prog.Trod.safe H.main H.ctlBody hat (walks_hear ht.input)).2
  rwa [flatMap_eventsBy, ht.traced.events]
  intro i e he
  obtain ⟨x, hx, hxe⟩ := List.mem_filterMap.mp (ht.traced.events (.worker i) ▸ mem_eventsBy.mpr he)
  cases hl : s.threads.loc (.worker i) with
  | absent =>
    have hnil := ht.traced.trodden (.worker i)
    rw [hl] at hnil
    have hnil : τ (.worker i) = [] := hnil
    rw [hnil] at hx
    cases hx
  | _ =>
    obtain ⟨p, hp⟩ := At.trod (ht.traced.trodden (.worker i)) (by simp [hl])
    exact ((H.worker_calls hp).2 x hx).event e hxe

end Process

/-! ## The mapper -/

section Mapper

variable {args : PoolArgs} {files : List InputFile} {w : Bytes}

theorem aloof_coming : Aloof (Event.coming : Event FileLine → List FileLine) :=
  ⟨fun _ => rfl, fun _ _ => rfl, fun _ => rfl, fun _ => rfl, fun _ => rfl⟩

/-- The controller of the mapper process at its cut: the lines received, and those to come. -/
def mapperHeard (files : List InputFile) : MapperPhase → Bytes × List FileLine → Prop
  | .receive r, v => ∃ es, v.2 ++ es = allLines files ∧ InStep es r v.1
  | .work, _ => False

/-- How it ends. -/
def mapperHeardAll (files : List InputFile) (code : Int) (v : Bytes × List FileLine) : Prop :=
  code = exitSuccess → v.2 = allLines files

theorem mapperMain_hears (hw : FileWires files w) :
    Prog.Safe (hearEnv Event.coming) (fun _ => True) (mapperProcessMain args).run
      (Prog.Ends (mapperHeard files) (mapperHeardAll files)) (w, []) := by
  have h := common_idle (K := (· = exitFailure)) aloof_coming rfl
  have hfail : ∀ c, c = exitFailure → mapperHeardAll files c (w, []) := by
    rintro _ rfl
    exact nofun
  refine hear_idle (onlyCalls_mapperAllocate args h setsUp_idle) (fun x _ => ?_) hfail
  refine (onlyCalls_mapperStart args (J := (· = .receive mrMainReceiverInit)) x.1 x.2 h rfl fun j _ =>
    ⟨idle_of_no_event (by simp) rfl, fun _ => idle_of_no_event (by simp) rfl⟩).hear fun y hy => ?_
  cases y with
  | ok ph =>
    obtain rfl : ph = .receive mrMainReceiverInit := hy
    exact ⟨_, rfl, .between ⟨rfl, hw⟩⟩
  | error c => exact hfail c hy

theorem mapperReceive_hears {r : Receiver} {v : Bytes × List FileLine} (hv : mapperHeard files (.receive r) v) :
    Prog.Safe (hearEnv Event.coming) (fun _ => True) (mapperReceive args r).run
      (Prog.Ends (mapperHeard files) (mapperHeardAll files)) v := by
  obtain ⟨es, hes, hstep⟩ := hv
  refine hear_io (((strict_receiveLine _ r).safe (receiveLine_inStep _ hstep)).mono fun x s _ hx => ?_)
  rcases hx with rfl | hx
  · have h := common_idle (K := (· = exitFailure)) aloof_coming rfl
    refine (onlyCalls_mapperFinish_failed args (J := fun _ => False) h).hear fun y hy => ?_
    cases y with
    | ok ph => exact hy.elim
    | error c =>
      obtain rfl : c = exitFailure := hy
      exact nofun
  · cases x with
    | again r => exact ⟨trivial, es, hes, hx⟩
    | line l r =>
      obtain ⟨es', rfl, hx⟩ := hx
      have h := common_idle (K := (· = exitFailure)) aloof_coming rfl
      have hnext : mapperHeard files (.receive r) (s, v.2 ++ [l]) := ⟨es', by rw [← hes]; simp, hx⟩
      have hrest : OnlyCalls (PCall.Idle Event.coming) (· = .receive r) (· = exitFailure) (do
          if (← mrQueuePush l) = -1 then
            mrLogError "Failed to push line to queue"
            note (.released l)
          return .receive r : Th FileLine MapperPhase) := by
        refine (onlyCalls_call (h.push l)).bind fun r => ?_
        dsimp only
        split
        · refine (onlyCalls_mrLogError h _).bind fun _ => (onlyCalls_call (h.released _)).bind fun _ => ?_
          exact onlyCalls_pure rfl
        · exact onlyCalls_pure rfl
      refine hear_note (hrest.hear fun y hy => ?_)
      cases y with
      | ok ph =>
        obtain rfl : ph = .receive r := hy
        exact hnext
      | error c =>
        obtain rfl : c = exitFailure := hy
        exact nofun
    | eof r =>
      obtain rfl : es = [] := hx
      rw [List.append_nil] at hes
      have h := common_idle (K := fun _ => True) aloof_coming trivial
      refine (onlyCalls_mapperFinish args (J := fun _ => False) h trivial 1).hear fun y hy => ?_
      cases y with
      | ok ph => exact hy.elim
      | error c => exact fun _ => hes
    | failed => exact hx.elim

theorem mapperBody_hears (ph : MapperPhase) (v : Bytes × List FileLine) (hv : mapperHeard files ph v) :
    Prog.Safe (hearEnv Event.coming) (fun _ => True) ((mapperCode args).body ph).run
      (Prog.Ends (mapperHeard files) (mapperHeardAll files)) v := by
  cases ph with
  | receive r => exact mapperReceive_hears hv
  | work => exact hv.elim

theorem mapperWorker_idle : OnlyCalls (PCall.Idle Event.coming) (· = .work) Any (mapperCode args).worker :=
  onlyCalls_mapperWorker (common_idle aloof_coming trivial) rfl

theorem mapperWork_idle (ph : MapperPhase) (h : ph = .work) :
    OnlyCalls (PCall.Idle Event.coming) (· = .work) Any ((mapperCode args).body ph) := by
  subst h
  exact onlyCalls_mapperWork (common_idle aloof_coming trivial) rfl trivial fun _ => idle_of_no_event (by simp) rfl

theorem mapperWorker_first : ∃ c k, (mapperCode args).worker.run = .call (.io c) k := ⟨_, run_io_call⟩

/-- What the controller of the mapper process hears. -/
def mapperHears (args : PoolArgs) (hw : FileWires files w) : (mapperCode args).Hears Event.coming w where
  ctl := mapperHeard files
  exit := mapperHeardAll files
  wk := (· = .work)
  main := mapperMain_hears hw
  ctlBody := mapperBody_hears
  first := mapperWorker_first
  worker := mapperWorker_idle
  wkBody := mapperWork_idle

/-- **A mapper process that returns `EXIT_SUCCESS` has received every line**, whatever calls have failed. -/
theorem mapper_received (hw : FileWires files w) {Cond : Hosted FileLine MapperPhase → Act Tid Val → Prop}
    {s : Hosted FileLine MapperPhase} (h : Reach (mapperSystem args w) Cond s)
    (hd : s.threads.loc .controller = .done exitSuccess) :
    cameOf s.threads.mem.user.events = allLines files := by
  rw [cameOf_eq]
  exact (mapperHears args hw).done h hd rfl

end Mapper

/-! ## The reducer -/

section Reducer

variable {args : PoolArgs} {msgs : List Msg}

theorem aloof_received : Aloof (Event.received : Event Ptr → List Pair) :=
  ⟨fun _ => rfl, fun _ _ => rfl, fun _ => rfl, fun _ => rfl, fun _ => rfl⟩

/-- The controller of the reducer process at its cut: the pairs received, and those to come. -/
def reducerHeard (msgs : List Msg) : ReducerPhase → Bytes × List Pair → Prop
  | .collect _, v => ∃ rest : List Msg, v.2 ++ rest.map Msg.pair = msgs.map Msg.pair ∧ v.1 = rest.flatMap Msg.wire
  | .work, _ => False

/-- How it ends. -/
def reducerHeardAll (msgs : List Msg) (code : Int) (v : Bytes × List Pair) : Prop :=
  code = exitSuccess → v.2 = msgs.map Msg.pair

theorem reducerMain_hears : Prog.Safe (hearEnv Event.received) (fun _ => True) reducerProcessMain.run
    (Prog.Ends (reducerHeard msgs) (reducerHeardAll msgs)) (msgs.flatMap Msg.wire, []) := by
  have h := common_idle (K := (· = exitFailure)) aloof_received rfl
  have hmain : OnlyCalls (PCall.Idle Event.received) (· = .collect .empty) (· = exitFailure) reducerProcessMain :=
    (onlyCalls_mrLog h _ _).bind fun r => (onlyCalls_syscallExitCheck h r (onlyCalls_pure trivial)).bind fun _ =>
      onlyCalls_pure rfl
  refine hmain.hear fun y hy => ?_
  cases y with
  | ok ph =>
    obtain rfl : ph = .collect .empty := hy
    exact ⟨msgs, rfl, rfl⟩
  | error c =>
    obtain rfl : c = exitFailure := hy
    exact nofun

theorem collectionFailed_hears {v : Bytes × List Pair} :
    Prog.Safe (hearEnv Event.received) (fun _ => True) collectionFailed.run
      (Prog.Ends (reducerHeard msgs) (reducerHeardAll msgs)) v := by
  have h := common_idle (K := (· = exitFailure)) aloof_received rfl
  have hfailed : OnlyCalls (PCall.Idle Event.received) (fun _ => False) (· = exitFailure) collectionFailed :=
    (onlyCalls_mrLogError h _).bind fun _ => onlyCalls_returns h.failure
  refine hfailed.hear fun y hy => ?_
  cases y with
  | ok ph => exact hy.elim
  | error c =>
    obtain rfl : c = exitFailure := hy
    exact nofun

/-- What the receiver returns when the pairs `rest` are to come. -/
theorem receivePair_next (fd : Nat) (rest : List Msg) :
    (receivePairFromMapperFd fd).Wp StreamEnv (fun x s => rest = [] ∧ x = .eof ∨
      ∃ m rest', rest = m :: rest' ∧ x = .pair (some (m.token.bytes ++ [0])) m.value.bytes ∧ s = rest'.flatMap Msg.wire)
      (rest.flatMap Msg.wire) := by
  cases rest with
  | nil => exact (receivePair_eof fd).mono fun x s hx => .inl ⟨rfl, hx.1⟩
  | cons m rest => exact (receivePair_wire fd m _).mono fun x s hx => .inr ⟨m, rest, rfl, hx⟩

theorem reducerProcess_hears {tb : Table} {v : Bytes × List Pair} (hv : v.2 = msgs.map Msg.pair) :
    Prog.Safe (hearEnv Event.received) (fun _ => True) (reducerProcess args tb).run
      (Prog.Ends (reducerHeard msgs) (reducerHeardAll msgs)) v := by
  have h := common_idle (K := fun _ => True) aloof_received trivial
  refine hear_idle (onlyCalls_reducerAllocate args h setsUp_idle (fun xs => idle_note rfl) tb) (fun x _ => ?_)
    fun c _ _ => hv
  refine (onlyCalls_reducerStart args (J := fun _ => False) x.1 x.2 tb h trivial fun j _ =>
    ⟨idle_of_no_event (by simp) rfl, fun _ => idle_of_no_event (by simp) rfl⟩).hear fun y hy => ?_
  cases y with
  | ok ph => exact hy.elim
  | error c => exact fun _ => hv

/-- A pair without a token does not get into the table. -/
theorem collectPair_null {tb : Table} {value : Bytes} {s : Bytes} {R : Option Table → Bytes → Prop} :
    Prog.Safe failIo (fun _ => True) (collectPair tb none value) R s := by
  refine ⟨trivial, fun r s' he => ?_⟩
  obtain ⟨r0, -, hs⟩ := he
  cases mayReturn_of_serve hs

theorem collectPair_hears {tb : Table} {token : Bytes} {value : Bytes} {v : Bytes × List Pair}
    (hv : ∀ tb, reducerHeard msgs (.collect tb) v) :
    Prog.Safe (hearEnv Event.received) (fun _ => True) (do
        match ← collectPair tb (some token) value with
        | none => collectionFailed
        | some tb => return .collect tb : Th Ptr ReducerPhase).run
      (Prog.Ends (reducerHeard msgs) (reducerHeardAll msgs)) v := by
  have hstores : Stores fun c => (PCall.io c : PCall Ptr).Idle (Event.received : Event Ptr → List Pair) :=
    ⟨fun _ _ => idle_of_no_event (by simp) rfl, idle_of_no_event (by simp) rfl, fun _ => idle_of_no_event (by simp) rfl,
      fun _ => idle_of_no_event (by simp) rfl⟩
  refine hear_idle (K := fun _ => False) (onlyCalls_io (calls_collectPair hstores tb (some token) value)) (fun x _ => ?_)
    fun c hc => hc.elim
  cases x with
  | none => exact collectionFailed_hears
  | some tb => exact ⟨trivial, hv tb⟩

theorem reducerCollect_hears {tb : Table} {v : Bytes × List Pair} (hv : reducerHeard msgs (.collect tb) v) :
    Prog.Safe (hearEnv Event.received) (fun _ => True) (reducerCollect args tb).run
      (Prog.Ends (reducerHeard msgs) (reducerHeardAll msgs)) v := by
  obtain ⟨rest, hrest, hs⟩ := hv
  refine hear_io (((strict_receivePair _).safe (hs ▸ receivePair_next _ rest)).mono fun x s _ hx => ?_)
  rcases hx with (rfl | ⟨value, rfl⟩) | hx
  · exact collectionFailed_hears
  · exact hear_note (hear_io collectPair_null)
  · rcases hx with ⟨rfl, rfl⟩ | ⟨m, rest', rfl, rfl, rfl⟩
    · exact reducerProcess_hears (by simpa using hrest)
    · refine hear_note (collectPair_hears fun tb => ⟨rest', ?_, rfl⟩)
      rw [← hrest]
      simp [Event.received, Msg.pair, cstr_token]

theorem reducerBody_hears (ph : ReducerPhase) (v : Bytes × List Pair) (hv : reducerHeard msgs ph v) :
    Prog.Safe (hearEnv Event.received) (fun _ => True) ((reducerCode args).body ph).run
      (Prog.Ends (reducerHeard msgs) (reducerHeardAll msgs)) v := by
  cases ph with
  | collect tb => exact reducerCollect_hears hv
  | work => exact hv.elim

theorem reducerWorker_idle : OnlyCalls (PCall.Idle Event.received) (· = .work) Any (reducerCode args).worker :=
  onlyCalls_reducerWorker (common_idle aloof_received trivial) rfl

theorem reducerWork_idle (ph : ReducerPhase) (h : ph = .work) :
    OnlyCalls (PCall.Idle Event.received) (· = .work) Any ((reducerCode args).body ph) := by
  subst h
  exact onlyCalls_reducerWork (common_idle aloof_received trivial) rfl trivial fun _ _ => idle_of_no_event (by simp) rfl

theorem reducerWorker_first : ∃ c k, (reducerCode args).worker.run = .call (.io c) k := ⟨_, run_io_call⟩

/-- What the controller of the reducer process hears. -/
def reducerHears (args : PoolArgs) (msgs : List Msg) :
    (reducerCode args).Hears Event.received (msgs.flatMap Msg.wire) where
  ctl := reducerHeard msgs
  exit := reducerHeardAll msgs
  wk := (· = .work)
  main := reducerMain_hears
  ctlBody := reducerBody_hears
  first := reducerWorker_first
  worker := reducerWorker_idle
  wkBody := reducerWork_idle

/-- **A reducer process that returns `EXIT_SUCCESS` has received every pair**, whatever calls have failed. -/
theorem reducer_received {Cond : Hosted Ptr ReducerPhase → Act Tid Val → Prop} {s : Hosted Ptr ReducerPhase}
    (h : Reach (reducerSystem args (msgs.flatMap Msg.wire)) Cond s)
    (hd : s.threads.loc .controller = .done exitSuccess) :
    receivedOf s.threads.mem.user.events = msgs.map Msg.pair := by
  rw [receivedOf_eq]
  exact (reducerHears args msgs).done h hd rfl

end Reducer

end MrLib
