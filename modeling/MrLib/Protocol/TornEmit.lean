import MrLib.Protocol.PairStream

/-!
# Emits that fail

A `write` of an emit may fail when a part of the message is already out. `send_pair_to_reducer_fd` then returns `-1`
and the emit gives the mutex back, so the next emit, of this worker or of another, writes its message after the part.

A run leaves a `Trail`: the messages of which the last byte was written, and the first message that was torn. The
output is framed (`Framing`) when it is these messages, then at most one part of a message, and nothing more once a
message is torn. `framing_survives`: it is framed in every run in which, once a message is torn, every later write fails
too; whatever fails besides. `framing_broken` is a run in which the next write succeeds.
-/

namespace MrLib

open Conc

variable {T β μ F : Type} {es : Nat}

/-- What a run has put on `stdout`: the messages written, each with the thread that emitted it, and the first message
that was torn, with all that was out then. -/
structure Trail (T : Type) where
  log : List (T × Msg)
  torn : Option (Msg × Bytes)

def Trail.add (tr : Trail T) (s : PState T β es μ F) (a : Act T Val) : Trail T where
  log := tr.log ++ (committed s a).toList
  torn := tr.torn <|> (tears s a).map fun m => (m, s.mem.stdout.out)

/-- A process that has written nothing; the thread `t` is about to make the first call of `start t`, or is not
created yet. -/
def processStart (start : T → Option (Next β es F)) (q : Queue β) (u : μ) : PState T β es μ F where
  loc t := (start t).elim .absent Next.enter
  owner _ := none
  asleep _ := ∅
  woken _ := ∅
  mem := ⟨q, ⟨[], 0⟩, u⟩

/-- The threads of a process, with the trail of the run. -/
def trailed [DecidableEq T] (cl : Client T β es μ F) (s0 : PState T β es μ F) : Lts (PState T β es μ F × Trail T) (Act T Val) where
  init := (s0, ⟨[], none⟩)
  step x a := ((runtime cl).step x.1 a).map fun s' => (s', x.2.add x.1 a)

/-- The output is the messages written, then at most one part of a message: of the torn one, or of the one that is being
written. Once a message is torn, nothing is added. -/
def Framing (x : PState T β es μ F × Trail T) : Prop :=
  (∃ p, x.1.mem.stdout.out = wires x.2.log ++ p ∧ (p = [] ∨ ∃ m, p <+: m.wire ∧
    ((∃ b, x.2.torn = some (m, b)) ∨ ∃ t e f, x.1.loc t = .emit m e f ∧ e.holds = true))) ∧
  ∀ m b, x.2.torn = some (m, b) → x.1.mem.stdout.out = b

/-- The call of this step is no write of an emit that succeeds. -/
def writesNothing (s : PState T β es μ F) : Act T Val → Bool
  | .ret t r =>
    match s.loc t, r with
    | .emit _ (.write _ _) _, .fail => true
    | .emit _ (.write _ _) _, _ => false
    | _, _ => true
  | _ => true

/-- A write fails or returns how many bytes it has written; it fails when a message is torn. -/
def failsOn (x : PState T β es μ F × Trail T) (a : Act T Val) : Bool :=
  writesOk x.1 a && (x.2.torn.isNone || writesNothing x.1 a)

/-! ## A step that writes nothing -/

variable {cl : Client T β es μ F} {s s' : PState T β es μ F} {a : Act T Val}

theorem emit_next_out (m : Msg) (o : Stdout) {e : EmitLoc} {r : Ret Val}
    (h : ∀ c cs, e = .write c cs → r = .fail) : (e.next m o r).2.out = o.out := by
  cases e with
  | lock => cases r <;> rfl
  | unlock res => cases r <;> rfl
  | lockLog l | unlockLog l | writeLog l => rfl
  | write c cs =>
    obtain rfl := h c cs rfl
    rfl

/-- What is out stays as it is, and no message is committed. -/
theorem out_of_writesNothing [DecidableEq T] (hs : Trans (runtime cl) s a s') (h : writesNothing s a = true) :
    s'.mem.stdout.out = s.mem.stdout.out ∧ committed s a = none := by
  cases hs.move with
  | stay ha hl hm => exact ⟨by rw [hm], committed_of_no_return ha⟩
  | create t u ha hc hu hl hm =>
    have hne : ∀ m e f, s.loc t ≠ .emit m e f := fun m e f he => by
      rw [he] at hc
      cases e <;> cases hc
    exact ⟨by rw [hm, (next_stdout cl hne t .ok s.mem).1], committed_ok (.inl ha)⟩
  | call t r hr ha hx hl hm =>
    by_cases hem : ∀ m e f, s.loc t ≠ .emit m e f
    · exact ⟨by rw [hm, (next_stdout cl hem t r s.mem).1],
        committed_returns ha fun m c f _ he => absurd he (hem m _ f)⟩
    · simp only [ne_eq, not_forall, not_not] at hem
      obtain ⟨m, e, f, he⟩ := hem
      have hfail : ∀ c cs, e = .write c cs → r = .fail := by
        rintro c cs rfl
        obtain rfl := hx (.write stdoutFileno c) (by rw [he]; rfl)
        simp only [writesNothing, he] at h
        cases r with
        | fail => rfl
        | _ => cases h
      refine ⟨?_, committed_returns ha fun m' c f' k he' hk => ?_⟩
      · rw [hm, he, (next_of_emit cl m e f t r s.mem).1, emit_next_out m _ hfail]
      · rw [he] at he'
        cases he'
        rw [hfail _ _ rfl] at hk
        cases hk

/-- A message is torn by a write that fails, when a part of it is out. -/
theorem tears_inv {m : Msg} (h : tears s a = some m) :
    ∃ t c cs f, a = .ret t .fail ∧ s.loc t = .emit m (.write c cs) f := by
  unfold tears at h
  split at h
  · split at h
    · rename_i m' c cs f hl
      split at h
      · cases h
        exact ⟨_, c, cs, f, rfl, hl⟩
      · cases h
    · cases h
  · cases h

/-! ## Runs -/

/-- The invariant: who is inside owns the mutex; until a message is torn the messages are whole, and from then on what
is out is what was out then. -/
structure Kept (x : PState T β es μ F × Trail T) : Prop where
  owned : Owned .stdout TLoc.inEmit x.1
  whole : x.2.torn = none → Untorn x.1 x.2.log
  torn : ∀ m b, x.2.torn = some (m, b) → x.1.mem.stdout.out = b ∧ ∃ p, b = wires x.2.log ++ p ∧ p <+: m.wire

/-- **The step lemma.** -/
theorem Kept.step [DecidableEq T] {x : PState T β es μ F × Trail T} (h : Kept x) (hs : Trans (runtime cl) x.1 a s')
    (hok : failsOn x a = true) : Kept (s', x.2.add x.1 a) := by
  have hO' := (runtime_enclosed_stdout cl).owned h.owned hs
  simp only [failsOn, Bool.and_eq_true, Bool.or_eq_true] at hok
  obtain ⟨hw, hn⟩ := hok
  cases htorn : x.2.torn with
  | some mb =>
    -- the message is torn already: nothing is written any more
    obtain ⟨hout, hc⟩ := out_of_writesNothing hs (hn.resolve_left (by simp [htorn]))
    refine ⟨hO', fun e => by simp [Trail.add, htorn] at e, fun m b e => ?_⟩
    have e' : x.2.torn = some (m, b) := by simpa [Trail.add, htorn] using e
    simpa [Trail.add, hc, hout] using h.torn m b e'
  | none =>
    have hU := h.whole htorn
    cases htear : tears x.1 a with
    | none =>
      exact ⟨hO', fun _ => hU.step h.owned hO' hs hw htear, fun m b e => by simp [Trail.add, htorn, htear] at e⟩
    | some m =>
      -- this step tears it
      obtain ⟨t, c, cs, f, rfl, hl⟩ := tears_inv htear
      obtain ⟨hout, hc⟩ := out_of_writesNothing hs (by simp [writesNothing, hl])
      obtain ⟨p, hp, hwire⟩ := hU.held t m _ f hl rfl
      refine ⟨hO', fun e => by simp [Trail.add, htorn, htear] at e, fun m' b e => ?_⟩
      have e' : m = m' ∧ x.1.mem.stdout.out = b := by simpa [Trail.add, htorn, htear] using e
      obtain ⟨rfl, rfl⟩ := e'
      exact ⟨hout, p, by simpa [Trail.add, hc] using hp, _, hwire⟩

theorem Kept.framing {x : PState T β es μ F × Trail T} (h : Kept x) : Framing x := by
  refine ⟨?_, fun m b e => (h.torn m b e).1⟩
  cases htorn : x.2.torn with
  | some mb =>
    obtain ⟨hb, p, hp, hpre⟩ := h.torn mb.1 mb.2 htorn
    exact ⟨p, hb.trans hp, .inr ⟨mb.1, hpre, .inl ⟨mb.2, rfl⟩⟩⟩
  | none =>
    have hU := h.whole htorn
    by_cases hin : ∃ t, (x.1.loc t).inEmit
    · obtain ⟨t, m, e, f, hl, he⟩ := hin
      have hpart := hU.held t m e f hl he
      cases e with
      | write c cs =>
        obtain ⟨p, hp, hwire⟩ := hpart
        exact ⟨p, hp, .inr ⟨m, ⟨_, hwire⟩, .inr ⟨t, _, f, hl, rfl⟩⟩⟩
      | _ => exact ⟨[], hpart.trans (List.append_nil _).symm, .inl rfl⟩
    · exact ⟨[], by rw [hU.quiet (not_exists.mp hin), List.append_nil], .inl rfl⟩

theorem kept_start (start : T → Option (Next β es F)) (q : Queue β) (u : μ) :
    Kept ((processStart start q u : PState T β es μ F), (⟨[], none⟩ : Trail T)) := by
  have hout : ∀ t, ¬ ((processStart start q u : PState T β es μ F).loc t).inEmit := fun t => by
    simp only [processStart]
    cases start t with
    | none => exact fun ⟨_, _, _, e, _⟩ => nomatch e
    | some n => exact not_inEmit_enter n
  exact ⟨fun t ht => absurd ht (hout t), fun _ => ⟨fun _ => rfl, fun t m e f hl he => absurd ⟨m, e, f, hl, he⟩ (hout t)⟩,
    nofun⟩

/-- **The output stays framed.** Any threads of any process emit; a write may fail at any point of a message, and any
other call may fail. If every write fails once a message is torn, every state reached is framed. -/
theorem framing_survives [DecidableEq T] (cl : Client T β es μ F) (start : T → Option (Next β es F)) (q : Queue β) (u : μ)
    {x : PState T β es μ F × Trail T}
    (h : Reach (trailed cl (processStart start q u)) (fun x a => failsOn x a = true) x) : Framing x := by
  refine Kept.framing (h.inv (kept_start start q u) ?_)
  intro x a x' hx hok hs
  obtain ⟨s', hs', rfl⟩ := Option.map_eq_some_iff.mp hs
  exact hx.step (Code.trans_of_step hs') hok

/-! ### Two workers that go on after a failing emit -/

/-- The thread is in an emit. -/
def TLoc.emitting {β F : Type} {es : Nat} : TLoc β es F → Bool
  | .emit _ _ _ => true
  | _ => false

theorem TLoc.emitting_iff {β F : Type} {es : Nat} {l : TLoc β es F} :
    l.emitting = true ↔ ∃ m e f, l = .emit m e f := by
  cases l <;> simp [TLoc.emitting]

/-- `mr_log` succeeds. -/
def logged {T : Type} (t : T) : List (Act T Val) := List.replicate 7 (.ret t .ok)

/-- The value of the worker `u` cannot be written; both emits return. -/
def tornEmit {T : Type} (t u : T) : List (Act T Val) :=
  [.ret u .ok, .ret u (.val (.count 16)), .ret u .fail] ++ logged u ++ [.ret u .ok, .ret t .ok]

def twoWorkers : Lts (PState (Fin 2) UInt8 0 Unit (List Msg) × Trail (Fin 2)) (Act (Fin 2) Val) :=
  trailed (emitter (Fin 2)) (processStart (fun t => some (emitNext (twoPairs t))) (mrQueueInit [] 0 0) ())

theorem framing_survives_tornEmit :
    ∃ x, Reach twoWorkers (fun x a => failsOn x a = true) x ∧ Framing x ∧ x.2.torn.isSome = true ∧
      (∃ m e f, x.1.loc 0 = .emit m e f) := by
  obtain ⟨x, hr, ht, hl⟩ := reach_of_runP (T := twoWorkers) (P := failsOn)
    (fun x => x.2.torn.isSome = true ∧ (x.1.loc 0).emitting = true) (tornEmit 0 1 ++ [.ret 0 .fail]) (by decide)
  exact ⟨x, hr, framing_survives _ _ _ _ hr, ht, TLoc.emitting_iff.mp hl⟩

/-- A message of the two workers. -/
def IsPair (m : Msg) : Prop := ∃ t, m ∈ twoPairs t

instance (m : Msg) : Decidable (IsPair m) := inferInstanceAs (Decidable (∃ t : Fin 2, m ∈ twoPairs t))

theorem IsPair.cases {P : Msg → Prop} (h : ∀ t, ∀ m ∈ twoPairs t, P m) {m : Msg} (hm : IsPair m) : P m := by
  obtain ⟨t, ht⟩ := hm
  exact h t m ht

/-- The header of the message of worker 1, and then the whole message of worker 0. -/
def mixed : Bytes := [0, 0, 0, 0, 0, 0, 0, 0, 2, 0, 0, 0, 0, 0, 0, 0, 1, 0, 0, 0, 0, 0, 0, 0, 0, 0, 0, 0, 0, 0, 0, 0, 97]

/-- **A later write goes through**: bytes are added after the tear, and what is out is not messages of the workers and
then at most one part of one. -/
theorem framing_broken :
    ∃ x, Reach twoWorkers (fun x a => writesOk x.1 a = true) x ∧ ¬ Framing x ∧
      ∀ (ms : List Msg) (m : Msg) (p : Bytes), (∀ m ∈ ms, IsPair m) → IsPair m → p <+: m.wire →
        x.1.mem.stdout.out ≠ ms.flatMap Msg.wire ++ p := by
  obtain ⟨x, hr, hout, ht⟩ := reach_of_runP (T := twoWorkers) (P := fun x a => writesOk x.1 a)
    (fun x => x.1.mem.stdout.out = mixed ∧ (x.2.torn.any fun t => t.2.length = 16) = true)
    (tornEmit 0 1 ++ [.ret 0 (.val (.count 16)), .ret 0 (.val (.count 1))]) (by decide)
  refine ⟨x, hr, fun hF => ?_, fun ms m p hms hm hp he => ?_⟩
  · obtain ⟨⟨m, b⟩, htorn, hb⟩ := (Option.any_eq_true _ _).mp ht
    have h16 : b.length = 16 := of_decide_eq_true hb
    rw [← hF.2 m b htorn, hout] at h16
    exact absurd h16 (by decide)
  · rw [hout] at he
    cases ms with
    | nil =>
      have hlen : mixed.length ≤ m.wire.length := by
        rw [he]
        simpa using hp.length_le
      exact absurd hlen (hm.cases (P := fun m => ¬ mixed.length ≤ m.wire.length) (by decide))
    | cons m' ms =>
      have hpre : m'.wire <+: mixed := ⟨ms.flatMap Msg.wire ++ p, by rw [he]; simp⟩
      exact absurd hpre ((hms m' (by simp)).cases (P := fun m => ¬ m.wire <+: mixed) (by decide))

end MrLib
