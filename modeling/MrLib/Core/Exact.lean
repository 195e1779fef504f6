import MrLib.Core.Code

/-!
# The judgement about failing calls

`Exact` is about one piece of the code of `mr_start`: from a trace without a failure it goes on, or returns 0, exactly
if no call has failed, and returns `-1` otherwise. It has one rule for each way the code is put together, a sequence
(`Exact.bind`), a checked call (`Tells.check`), a call of a function (`Exact.call`, `Exact.within`, `Exact.check`).
`Tells` is about one call, whose result says whether it has failed, `Failing` and `Command` about error paths.
-/

namespace MrLib

open Conc

abbrev Trace := List (Io × IoRet)

/-- What a call may return. -/
def answers (ends : Nat → Status) : Io → IoRet → Bool
  | .log _ _, .int r => r = 0 ∨ r = -1
  | .writeN _ bs, .int r => r = bs.length ∨ r = -1
  | .sys e, .sys r => e.mayReturn ends r
  | _, _ => false

/-- The call has failed, and the code looks at its result: everywhere except for one warning. `getline` returns `-1` at
the end of the file too, and `malloc(0)` may return `NULL`. -/
def failure : Io → IoRet → Bool
  | .log level format, .int r =>
    r = -1 ∧ ¬ (level = .warning ∧ format = "Skipping directory '%s' in input directory '%s'")
  | .sys .getline, _ | .sys (.malloc 0), _ => false
  | _, .int r => r = -1
  | _, .sys .fail => true
  | _, .sys _ => false

/-- The process `pid` was forked as this child. -/
def Forked (τ : Trace) (child : Proc) (pid : Nat) : Prop := (.sys (.fork child), .sys (.val (.pid pid))) ∈ τ

/-! ## The judgement -/

variable {ends : Nat → Status} {α β : Type} {τ τ' : Trace}

/-- No call has failed. -/
def Clean (τ : Trace) : Prop := ∀ e ∈ τ, failure e.1 e.2 = false

/-- Both children have been forked. -/
def BothForked (τ : Trace) : Prop := ∀ child ∈ [Proc.mapper, Proc.reducer], ∃ pid, Forked τ child pid

theorem Clean.of_grows (h : τ <+: τ') (hc : Clean τ') : Clean τ := fun e he => hc e (h.subset he)

theorem BothForked.grows (h : τ <+: τ') (hb : BothForked τ) : BothForked τ' := fun child hm => by
  obtain ⟨pid, hp⟩ := hb child hm
  exact ⟨pid, h.subset hp⟩

theorem clean_append {e : Io × IoRet} : Clean (τ ++ [e]) ↔ Clean τ ∧ failure e.1 e.2 = false := by
  simp [Clean, or_imp, forall_and]

/-- What is known of the children: that both have been forked, or nothing. -/
def Known (b : Bool) (τ : Trace) : Prop := b = true → BothForked τ

theorem Known.grows {b : Bool} (h : τ <+: τ') (hk : Known b τ) : Known b τ' := fun hb => (hk hb).grows h

/-- How a piece of code that started without a failure may end. -/
def Verdict (b : Bool) (τ : Trace) : Except Leave α → Prop
  | .ok _ => Clean τ ∧ Known b τ
  | .error (.ret r) => r = 0 ∧ Clean τ ∧ BothForked τ ∨ r = -1 ∧ ¬ Clean τ
  | .error _ => True

/-- **A piece of code returns `-1` exactly if a call fails.** -/
def Exact (ends : Nat → Status) (b b' : Bool) (f : Fn α) : Prop :=
  ∀ ⦃τ τ' : Trace⦄ ⦃a : Except Leave α⦄, Clean τ → Known b τ → Prog.Runs (Prog.traced (answers ends)) τ f.run τ' a →
    Verdict b' τ' a

/-- A piece of an error path: it does not return anything but `-1`. -/
def Command (ends : Nat → Status) (f : Fn α) : Prop :=
  ∀ ⦃τ τ' : Trace⦄ ⦃a : Except Leave α⦄, Prog.Runs (Prog.traced (answers ends)) τ f.run τ' a →
    ∀ r, a = .error (.ret r) → r = -1

/-- An error path: it ends by returning `-1` or by `_exit`. -/
def Failing (ends : Nat → Status) (f : Fn α) : Prop :=
  ∀ ⦃τ τ' : Trace⦄ ⦃a : Except Leave α⦄, Prog.Runs (Prog.traced (answers ends)) τ f.run τ' a →
    a = .error (.ret (-1)) ∨ ∃ l, a = .error l ∧ ∀ r, l ≠ .ret r

/-- A call goes on in every case, and its result tells whether a call has failed in it. -/
def Tells (ends : Nat → Status) (good : α → Prop) (f : Fn α) : Prop :=
  ∀ ⦃τ τ' : Trace⦄ ⦃a : Except Leave α⦄, Clean τ → Prog.Runs (Prog.traced (answers ends)) τ f.run τ' a →
    ∃ x, a = .ok x ∧ (Clean τ' ↔ good x)

theorem runs_lift {p : IoProg α} {a : Except Leave α} :
    Prog.Runs (Prog.traced (answers ends)) τ (liftM p : Fn α).run τ' a ↔
      ∃ x, a = .ok x ∧ Prog.Runs (Prog.traced (answers ends)) τ p τ' x := by
  show Prog.Runs _ τ (p >>= fun x => .ret (.ok x)) τ' a ↔ _
  simp only [Prog.runs_bind, Prog.runs_ret]
  constructor
  · rintro ⟨τ1, x, h, rfl, rfl⟩
    exact ⟨x, rfl, h⟩
  · rintro ⟨x, rfl, h⟩
    exact ⟨τ', x, h, rfl, rfl⟩

theorem runs_fn_bind {f : Fn α} {g : α → Fn β} {a : Except Leave β} :
    Prog.Runs (Prog.traced (answers ends)) τ (f >>= g).run τ' a ↔
      (∃ τ1 x, Prog.Runs (Prog.traced (answers ends)) τ f.run τ1 (.ok x) ∧
        Prog.Runs (Prog.traced (answers ends)) τ1 (g x).run τ' a) ∨
      ∃ l, a = .error l ∧ Prog.Runs (Prog.traced (answers ends)) τ f.run τ' (.error l) := by
  show Prog.Runs _ τ (f.run >>= ExceptT.bindCont g) τ' a ↔ _
  rw [Prog.runs_bind]
  constructor
  · rintro ⟨τ1, x, h, hk⟩
    cases x with
    | ok x => exact .inl ⟨τ1, x, h, hk⟩
    | error l =>
      obtain ⟨rfl, rfl⟩ := Prog.runs_ret.mp hk
      exact .inr ⟨l, rfl, h⟩
  · rintro (⟨τ1, x, h, hk⟩ | ⟨l, rfl, h⟩)
    · exact ⟨τ1, .ok x, h, hk⟩
    · exact ⟨τ', .error l, h, .ret⟩

theorem runs_pure {x : α} {a : Except Leave α} :
    Prog.Runs (Prog.traced (answers ends)) τ (pure x : Fn α).run τ' a ↔ τ' = τ ∧ a = .ok x := Prog.runs_ret

theorem runs_throw {l : Leave} {a : Except Leave α} :
    Prog.Runs (Prog.traced (answers ends)) τ (throw l : Fn α).run τ' a ↔ τ' = τ ∧ a = .error l := Prog.runs_ret

/-! ## Rules -/

section Rules

variable {b b' b'' : Bool} {good : α → Prop} {f : Fn α} {g : α → Fn β} {cmd : Fn Unit}

theorem exact_pure {x : α} : Exact ends b b (pure x : Fn α) := by
  intro τ τ' a hc hk hr
  obtain ⟨rfl, rfl⟩ := runs_pure.mp hr
  exact ⟨hc, hk⟩

theorem exact_ret_zero : Exact ends true b' (ret 0 : Fn α) := by
  intro τ τ' a hc hk hr
  obtain ⟨rfl, rfl⟩ := runs_throw.mp hr
  exact .inl ⟨rfl, hc, hk rfl⟩

theorem exact_exit {l : Leave} (hl : ∀ r, l ≠ .ret r) : Exact ends b b' (throw l : Fn α) := by
  intro τ τ' a hc hk hr
  obtain ⟨rfl, rfl⟩ := runs_throw.mp hr
  cases l with
  | ret r => exact absurd rfl (hl r)
  | exit _ | processMain _ _ => trivial

theorem Exact.bind (hf : Exact ends b b' f) (hg : ∀ x, Exact ends b' b'' (g x)) : Exact ends b b'' (f >>= g) := by
  intro τ τ' a hc hk hr
  rcases runs_fn_bind.mp hr with ⟨τ1, x, h1, h2⟩ | ⟨l, rfl, h1⟩
  · obtain ⟨hc1, hk1⟩ := hf hc hk h1
    exact hg x hc1 hk1 h2
  · have := hf hc hk h1
    cases l with
    | ret r => exact this
    | exit _ | processMain _ _ => trivial

/-- A failing call leads to the error path, another one goes on. -/
theorem Tells.bind (hf : Tells ends good f) (hg : ∀ x, good x → Exact ends b b' (g x))
    (hb : ∀ x, ¬ good x → Failing ends (g x)) : Exact ends b b' (f >>= g) := by
  intro τ τ' a hc hk hr
  rcases runs_fn_bind.mp hr with ⟨τ1, x, h1, h2⟩ | ⟨l, rfl, h1⟩
  · obtain ⟨y, hy, hgood⟩ := hf hc h1
    cases hy
    by_cases hx : good x
    · exact hg x hx (hgood.mpr hx) (hk.grows h1.grows) h2
    · have hnc : ¬ Clean τ' := fun h => hx (hgood.mp (h.of_grows h2.grows))
      rcases hb x hx h2 with rfl | ⟨l, rfl, hl⟩
      · exact .inr ⟨rfl, hnc⟩
      · cases l with
        | ret r => exact absurd rfl (hl r)
        | exit _ | processMain _ _ => trivial
  · obtain ⟨y, hy, -⟩ := hf hc h1
    cases hy

/-- A call that is not checked. -/
theorem Tells.always (hf : Tells ends (fun _ => True) f) (hg : ∀ x, Exact ends b b' (g x)) :
    Exact ends b b' (f >>= g) :=
  hf.bind (fun x _ => hg x) fun _ hx => absurd trivial hx

theorem Failing.bind (hf : Failing ends f) : Failing ends (f >>= g) := by
  intro τ τ' a hr
  rcases runs_fn_bind.mp hr with ⟨τ1, x, h1, -⟩ | ⟨l, rfl, h1⟩
  · rcases hf h1 with h | ⟨l, h, -⟩ <;> cases h
  · rcases hf h1 with h | ⟨l', h, hl⟩
    · cases h
      exact .inl rfl
    · cases h
      exact .inr ⟨_, rfl, hl⟩

theorem failing_ret : Failing ends (ret (-1) : Fn α) := by
  intro τ τ' a hr
  obtain ⟨rfl, rfl⟩ := runs_throw.mp hr
  exact .inl rfl

theorem command_pure {x : α} : Command ends (pure x : Fn α) := by
  intro τ τ' a hr r ha
  obtain ⟨rfl, rfl⟩ := runs_pure.mp hr
  cases ha

theorem command_lift (p : IoProg α) : Command ends (liftM p : Fn α) := by
  intro τ τ' a hr r ha
  obtain ⟨x, rfl, -⟩ := runs_lift.mp hr
  cases ha

theorem command_throw {l : Leave} (hl : ∀ r, l = .ret r → r = -1) : Command ends (throw l : Fn α) := by
  intro τ τ' a hr r ha
  obtain ⟨rfl, rfl⟩ := runs_throw.mp hr
  cases ha
  exact hl r rfl

theorem Command.bind (hf : Command ends f) (hg : ∀ x, Command ends (g x)) : Command ends (f >>= g) := by
  intro τ τ' a hr r ha
  rcases runs_fn_bind.mp hr with ⟨τ1, x, -, h2⟩ | ⟨l, rfl, h1⟩
  · exact hg x h2 r ha
  · cases ha
    exact hf h1 r rfl

theorem Command.failing (hc : Command ends cmd) : Failing ends (cmd >>= fun _ => (ret (-1) : Fn α)) := by
  intro τ τ' a hr
  rcases runs_fn_bind.mp hr with ⟨τ1, x, -, h2⟩ | ⟨l, rfl, h1⟩
  · exact failing_ret h2
  · cases l with
    | ret r =>
      obtain rfl := hc h1 r rfl
      exact .inl rfl
    | exit _ | processMain _ _ => exact .inr ⟨_, rfl, nofun⟩

theorem failing_check (hc : Command ends cmd) : Failing ends (syscallRetCheck (-1) cmd) := by
  rw [syscallRetCheck, if_pos rfl]
  exact hc.failing

theorem command_check (r : Int) (hc : Command ends cmd) : Command ends (syscallRetCheck r cmd) := by
  rw [syscallRetCheck]
  split
  · exact hc.bind fun _ => command_throw fun r h => by cases h; rfl
  · exact command_pure

/-- `-1` is the result of a call that has failed. -/
def notFailed (r : Int) : Prop := r ≠ -1

/-- A checked call whose value is used. -/
theorem Tells.checkVal {f : Fn Int} {k : Int → Fn β} (hf : Tells ends notFailed f) (hc : Command ends cmd)
    (hk : ∀ r, Exact ends b b' (k r)) : Exact ends b b' (f >>= fun r => syscallRetCheck r cmd >>= fun _ => k r) := by
  refine hf.bind (fun r hr => ?_) fun r hr => ?_
  · rw [syscallRetCheck, if_neg hr]
    exact hk r
  · rw [notFailed, not_not] at hr
    subst hr
    exact (failing_check hc).bind

/-- **A checked call.** -/
theorem Tells.check {f : Fn Int} {k : Fn β} (hf : Tells ends notFailed f) (hc : Command ends cmd)
    (hk : Exact ends b b' k) : Exact ends b b' (f >>= fun r => syscallRetCheck r cmd >>= fun _ => k) :=
  hf.checkVal hc fun _ => hk

/-- A checked call at the end. -/
theorem Tells.checkLast {f : Fn Int} (hf : Tells ends notFailed f) (hc : Command ends cmd) :
    Exact ends b b (f >>= fun r => syscallRetCheck r cmd) := by
  refine hf.bind (fun r hr => ?_) fun r hr => ?_
  · rw [syscallRetCheck, if_neg hr]
    exact exact_pure
  · rw [notFailed, not_not] at hr
    subst hr
    exact failing_check hc

/-- A result that is checked, when it is not `-1`. -/
theorem exact_check_zero {k : Fn β} (hk : Exact ends b b' k) :
    Exact ends b b' (syscallRetCheck 0 cmd >>= fun _ => k) := by
  rw [syscallRetCheck, if_neg (by decide)]
  exact hk

/-- **A call of a function with loops.** -/
theorem Exact.within {rest : Int → Fn α} (hf : Exact ends b b' f) (h0 : Exact ends true b' (rest 0))
    (h1 : Failing ends (rest (-1))) : Exact ends b b' (f.within rest) := by
  intro τ τ' a hc hk hr
  obtain ⟨τ1, x, hx, h⟩ := Prog.runs_bind.mp hr
  have hv := hf hc hk hx
  cases x with
  | ok x =>
    obtain ⟨rfl, rfl⟩ := Prog.runs_ret.mp h
    exact hv
  | error l =>
    cases l with
    | ret r =>
      rcases hv with ⟨rfl, hc1, hb⟩ | ⟨rfl, hnc⟩
      · exact h0 hc1 (fun _ => hb) h
      · have hnc' : ¬ Clean τ' := fun hc' => hnc (hc'.of_grows (Prog.Runs.grows h))
        rcases h1 h with rfl | ⟨l, rfl, hl⟩
        · exact .inr ⟨rfl, hnc'⟩
        · cases l with
          | ret r => exact absurd rfl (hl r)
          | exit _ | processMain _ _ => trivial
    | exit _ | processMain _ _ =>
      obtain ⟨rfl, rfl⟩ := Prog.runs_ret.mp h
      trivial

/-- A checked call of a function that returns only `-1`. -/
theorem Exact.check (hf : Exact ends b b' f) (hr : Command ends f) (hc : Command ends cmd) :
    Exact ends b b' (f.check cmd) := by
  intro τ τ' a hcl hk hrun
  obtain ⟨τ1, x, hx, h⟩ := Prog.runs_bind.mp hrun
  have hv := hf hcl hk hx
  cases x with
  | ok x =>
    obtain ⟨rfl, rfl⟩ := Prog.runs_ret.mp h
    exact hv
  | error l =>
    cases l with
    | ret r =>
      obtain rfl := hr hx r rfl
      have hnc : ¬ Clean τ1 := by
        rcases hv with ⟨h0, -⟩ | ⟨-, h1⟩
        · cases h0
        · exact h1
      have hnc' : ¬ Clean τ' := fun hc' => hnc (hc'.of_grows (Prog.Runs.grows h))
      rcases hc.failing h with rfl | ⟨l, rfl, hl⟩
      · exact .inr ⟨rfl, hnc'⟩
      · cases l with
        | ret r => exact absurd rfl (hl r)
        | exit _ | processMain _ _ => trivial
    | exit _ | processMain _ _ =>
      obtain ⟨rfl, rfl⟩ := Prog.runs_ret.mp h
      trivial

end Rules

/-! ## Calls -/

theorem tells_call {c : Io} {k : IoRet → IoProg α} {good : α → Prop}
    (h : ∀ r, answers ends c r = true → ∃ x, k r = .ret x ∧ (failure c r = false ↔ good x)) :
    Tells ends good (liftM (Prog.call c k) : Fn α) := by
  intro τ τ' a hc hr
  obtain ⟨x, rfl, hx⟩ := runs_lift.mp hr
  obtain ⟨r, τ1, ⟨ha, rfl⟩, hk⟩ := Prog.runs_call.mp hx
  obtain ⟨y, hy, hg⟩ := h r ha
  rw [hy] at hk
  obtain ⟨rfl, rfl⟩ := Prog.runs_ret.mp hk
  refine ⟨_, rfl, ?_⟩
  rw [clean_append, ← hg]
  exact ⟨fun h => h.2, fun h => ⟨hc, h⟩⟩

theorem tells_mrLog {level : Level} {format : String}
    (h : ¬ (level = .warning ∧ format = "Skipping directory '%s' in input directory '%s'")) :
    Tells ends notFailed (liftM (mrLog level format) : Fn Int) := by
  refine tells_call fun r hr => ?_
  cases r with
  | int r => exact ⟨r, rfl, by simp [failure, notFailed, h]⟩
  | sys r => cases hr

theorem tells_mrLogInfo (format : String) : Tells ends notFailed (liftM (mrLogInfo format) : Fn Int) :=
  tells_mrLog (by simp)

theorem tells_skipping :
    Tells ends (fun _ => True)
      (liftM (mrLogWarning "Skipping directory '%s' in input directory '%s'") : Fn Int) := by
  refine tells_call fun r hr => ?_
  cases r with
  | int r => exact ⟨r, rfl, by simp [failure]⟩
  | sys r => cases hr

theorem tells_writeN (fd : Nat) (bs : Bytes) : Tells ends notFailed (liftM (writeN fd bs) : Fn Int) := by
  refine tells_call fun r hr => ?_
  cases r with
  | int r => exact ⟨r, rfl, by simp [failure, notFailed]⟩
  | sys r => cases hr

/-- The calls whose failure is one. -/
def checked : Sys → Bool
  | .uninit _ | .stuck | .malloc _ | .getline => false
  | _ => true

theorem failure_checked {e : Sys} (he : checked e = true) (r : Ret Val) :
    failure (.sys e) (.sys r) = true ↔ r = .fail := by
  cases e <;> first | exact absurd he Bool.false_ne_true | (cases r <;> simp [failure])

theorem tells_sysInt {e : Sys} (he : checked e = true) : Tells ends notFailed (liftM (sysInt e) : Fn Int) := by
  refine tells_call fun r hr => ?_
  cases r with
  | int r => cases e <;> cases hr
  | sys r =>
    rw [← Bool.not_eq_true, failure_checked he]
    cases r <;> exact ⟨_, rfl, by simp [notFailed]⟩

theorem tells_sys {e : Sys} (he : checked e = true) {good : Ret Val → Prop}
    (h : ∀ r, answers ends (.sys e) (.sys r) = true → (r ≠ .fail ↔ good r)) :
    Tells ends good (liftM (sysCall e) : Fn (Ret Val)) := by
  refine tells_call fun r hr => ?_
  cases r with
  | int r => cases e <;> cases hr
  | sys r => exact ⟨r, rfl, by rw [← h r hr, ← Bool.not_eq_true, failure_checked he]⟩

theorem tells_uninit (n : Nat) : Tells ends (fun _ => True) (liftM (uninit n) : Fn Bytes) := by
  refine tells_call fun r hr => ?_
  match r, hr with
  | .sys (.val (.bytes block)), _ => exact ⟨block, rfl, by simp [failure]⟩

theorem tells_lineHeader (eof : Bool) (n : Nat) :
    Tells ends (fun _ => True) (liftM (lineHeader eof n) : Fn Bytes) := by
  refine tells_call fun r hr => ?_
  match r, hr with
  | .sys (.val (.bytes block)), _ => exact ⟨_, rfl, by simp [failure]⟩

theorem tells_getline : Tells ends (fun _ => True) (liftM (sysCall .getline) : Fn (Ret Val)) := by
  refine tells_call fun r hr => ?_
  cases r with
  | int r => cases hr
  | sys r => exact ⟨r, rfl, by simp [failure]⟩

theorem tells_malloc {n : Nat} (hn : 0 < n) :
    Tells ends (fun block => block.isSome = true) (liftM (malloc n) : Fn (Option Bytes)) := by
  obtain ⟨m, rfl⟩ := Nat.exists_eq_add_of_lt hn
  refine tells_call fun r hr => ?_
  match r, hr with
  | .sys .fail, _ => exact ⟨none, rfl, by simp [failure]⟩
  | .sys (.val (.bytes block)), _ => exact ⟨some block, rfl, by simp [failure]⟩

/-- `malloc(0)` fails as it likes. -/
theorem tells_malloc_zero : Tells ends (fun _ => True) (liftM (malloc 0) : Fn (Option Bytes)) := by
  refine tells_call fun r hr => ?_
  match r, hr with
  | .sys .fail, _ => exact ⟨none, rfl, by simp [failure]⟩
  | .sys (.val (.bytes block)), _ => exact ⟨some block, rfl, by simp [failure]⟩

/-- A read fails or returns bytes. -/
theorem answers_read {fd n : Nat} {x : IoRet} (h : answers ends (.sys (.read fd n)) x = true) :
    x = .sys .fail ∨ ∃ bs, x = .sys (.val (.bytes bs)) :=
  match x, h with
  | .sys .fail, _ => .inl rfl
  | .sys (.val (.bytes bs)), _ => .inr ⟨bs, rfl⟩

theorem readN_go_tells (fd : Nat) : ∀ (fuel n : Nat) {τ τ' : Trace} {r : Option Bytes}, Clean τ →
    Prog.Runs (Prog.traced (answers ends)) τ (readN.go fd fuel n) τ' r → (Clean τ' ↔ r.isSome = true)
  | 0, _, τ, τ', r, hc, h => by
    obtain ⟨rfl, rfl⟩ := Prog.runs_ret.mp h
    simp [hc]
  | fuel + 1, n, τ, τ', r, hc, h => by
    rw [readN.go] at h
    split at h
    · obtain ⟨rfl, rfl⟩ := Prog.runs_ret.mp h
      simp [hc]
    · obtain ⟨x, τ1, ⟨ha, rfl⟩, hk⟩ := Prog.runs_call.mp h
      rcases answers_read ha with rfl | ⟨bs, rfl⟩
      · obtain ⟨rfl, rfl⟩ := Prog.runs_ret.mp hk
        simp [clean_append, failure]
      · have hc1 : Clean (τ ++ [(.sys (.read fd n), .sys (.val (.bytes bs)))]) :=
          clean_append.mpr ⟨hc, rfl⟩
        simp only at hk
        split at hk
        · obtain ⟨rfl, rfl⟩ := Prog.runs_ret.mp hk
          simp [hc1]
        · obtain ⟨τ2, y, hy, hz⟩ := Prog.runs_bind.mp hk
          obtain ⟨rfl, rfl⟩ := Prog.runs_ret.mp hz
          rw [readN_go_tells fd fuel _ hc1 hy, Option.isSome_map]

theorem tells_readN (fd n : Nat) :
    Tells ends (fun r => r.isSome = true) (liftM (readN fd n) : Fn (Option Bytes)) := by
  intro τ τ' a hc h
  obtain ⟨x, rfl, hx⟩ := runs_lift.mp h
  exact ⟨x, rfl, readN_go_tells fd n n hc hx⟩

/-! ### Functions without loops -/

/-- A function that does not exit; `good` holds of what it goes on with. -/
def Plain (ends : Nat → Status) (good : α → Prop) (f : Fn α) : Prop :=
  ∀ ⦃τ τ' : Trace⦄ ⦃a : Except Leave α⦄, Prog.Runs (Prog.traced (answers ends)) τ f.run τ' a →
    (∃ x, a = .ok x ∧ good x) ∨ ∃ r, a = .error (.ret r)

theorem plain_lift (p : IoProg α) : Plain ends (fun _ => True) (liftM p : Fn α) := by
  intro τ τ' a h
  obtain ⟨x, rfl, -⟩ := runs_lift.mp h
  exact .inl ⟨x, rfl, trivial⟩

theorem plain_pure {good : α → Prop} {x : α} (hx : good x) : Plain ends good (pure x : Fn α) := by
  intro τ τ' a h
  obtain ⟨rfl, rfl⟩ := runs_pure.mp h
  exact .inl ⟨x, rfl, hx⟩

theorem plain_ret {good : α → Prop} (r : Int) : Plain ends good (ret r : Fn α) := by
  intro τ τ' a h
  obtain ⟨rfl, rfl⟩ := runs_throw.mp h
  exact .inr ⟨r, rfl⟩

theorem Plain.bind {good : α → Prop} {good' : β → Prop} {f : Fn α} {g : α → Fn β} (hf : Plain ends good f)
    (hg : ∀ x, good x → Plain ends good' (g x)) : Plain ends good' (f >>= g) := by
  intro τ τ' a h
  rcases runs_fn_bind.mp h with ⟨τ1, x, h1, h2⟩ | ⟨l, rfl, h1⟩
  · rcases hf h1 with ⟨y, hy, hgood⟩ | ⟨r, hr⟩
    · cases hy
      exact hg x hgood h2
    · cases hr
  · rcases hf h1 with ⟨y, hy, -⟩ | ⟨r, hr⟩
    · cases hy
    · cases hr
      exact .inr ⟨r, rfl⟩

theorem plain_check (r : Int) {cmd : Fn Unit} (hc : Plain ends (fun _ => True) cmd) :
    Plain ends (fun _ => True) (syscallRetCheck r cmd) := by
  rw [syscallRetCheck]
  split
  · exact hc.bind fun _ _ => plain_ret _
  · exact plain_pure trivial

/-- **A call of a function without loops.** -/
theorem Exact.call {f : Fn Int} (hf : Exact ends false false f) (hp : Plain ends notFailed f) :
    Tells ends notFailed f.call := by
  intro τ τ' a hc h
  obtain ⟨τ1, x, hx, hk⟩ := Prog.runs_bind.mp h
  have hv := hf hc nofun hx
  rcases hp hx with ⟨r, rfl, hr⟩ | ⟨r, rfl⟩
  · obtain ⟨rfl, rfl⟩ := Prog.runs_ret.mp hk
    exact ⟨r, rfl, by simp [hv.1, hr]⟩
  · obtain ⟨rfl, rfl⟩ := Prog.runs_ret.mp hk
    refine ⟨r, rfl, ?_⟩
    rcases hv with ⟨rfl, hc1, -⟩ | ⟨rfl, hnc⟩
    · simp [hc1, notFailed]
    · simp [hnc, notFailed]

/-- A call before an error path. -/
theorem failing_seq {p : IoProg α} {f : Fn β} (hf : Failing ends f) : Failing ends (liftM p >>= fun _ => f) := by
  intro τ τ' a hr
  rcases runs_fn_bind.mp hr with ⟨τ1, x, -, h2⟩ | ⟨l, rfl, h1⟩
  · exact hf h2
  · obtain ⟨x, hx, -⟩ := runs_lift.mp h1
    cases hx

/-- The commands are sequences of calls. -/
theorem command_seq {p : IoProg α} {cmd : Fn β} (hc : Command ends cmd) :
    Command ends (liftM p >>= fun _ => cmd) := (command_lift p).bind fun _ => hc

theorem command_call {f : Fn Int} : Command ends f.call := by
  intro τ τ' a h r ha
  obtain ⟨τ1, x, -, hk⟩ := Prog.runs_bind.mp h
  subst ha
  cases x with
  | ok x => cases (Prog.runs_ret.mp hk).2
  | error l => cases l <;> cases (Prog.runs_ret.mp hk).2

theorem command_checkCall {p : IoProg Int} {cmd : Fn Unit} {k : Fn α} (hc : Command ends cmd) (hk : Command ends k) :
    Command ends (liftM p >>= fun r => syscallRetCheck r cmd >>= fun _ => k) :=
  (command_lift p).bind fun r => (command_check r hc).bind fun _ => hk

theorem runs_bind_ok {f : Fn α} {g : α → Fn β} {y : β}
    (h : Prog.Runs (Prog.traced (answers ends)) τ (f >>= g).run τ' (.ok y)) :
    ∃ τ1 x, Prog.Runs (Prog.traced (answers ends)) τ f.run τ1 (.ok x) ∧
      Prog.Runs (Prog.traced (answers ends)) τ1 (g x).run τ' (.ok y) := by
  rcases runs_fn_bind.mp h with h | ⟨l, hl, -⟩
  · exact h
  · cases hl

theorem runs_check_ok {f : Fn α} {cmd : Fn Unit} {x : α} (hc : Command ends cmd)
    (h : Prog.Runs (Prog.traced (answers ends)) τ (f.check cmd).run τ' (.ok x)) :
    Prog.Runs (Prog.traced (answers ends)) τ f.run τ' (.ok x) := by
  obtain ⟨τ1, y, hy, hk⟩ := Prog.runs_bind.mp h
  cases y with
  | ok y =>
    obtain ⟨rfl, he⟩ := Prog.runs_ret.mp hk
    cases he
    exact hy
  | error l =>
    cases l with
    | ret r => rcases hc.failing hk with he | ⟨l, he, -⟩ <;> cases he
    | exit _ | processMain _ _ =>
      obtain ⟨rfl, he⟩ := Prog.runs_ret.mp hk
      cases he

end MrLib
