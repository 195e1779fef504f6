import Mathlib.Logic.Basic

/-!
# Sequential programs with calls

A `Prog C R α` makes calls of `C`, goes on with what they return (`R`), and ends with an `α`. Loops over an unbounded
input are not programs but what repeats them.

An environment `env : S → C → R → S → Prop` says what a call may return in a state and the state it leaves. `Runs` is
the run of a program; `Wp env p Q s` is total correctness: from `s` no call of `p` is without an answer, and every run
ends with `Q` (`Wp.run`, `Wp.ends`). The rules are `wp_bind` and `Wp.mono`. `Loop` repeats the blocks of a program
with loops until one of them leaves, and `LoopWp` is its total correctness.

`May env p Q s` is the other half: some run ends with `Q`. Its rules are `may_bind`, `may_call` and `Wp.may`, and a run that
may end badly refutes total correctness (`May.not_wp`); `LoopMay` is the same for loops.

In the environment `traced ok` the state is the list of the calls made so far with their answers; `feed` and `feedLoop`
run a program on given answers there.
-/

namespace Conc

inductive Prog (C R α : Type)
  | ret (a : α)
  | call (c : C) (k : R → Prog C R α)

namespace Prog

variable {C R α β : Type}

protected def bind : Prog C R α → (α → Prog C R β) → Prog C R β
  | ret a, f => f a
  | call c k, f => call c fun r => (k r).bind f

instance : Monad (Prog C R) where
  pure := ret
  bind := Prog.bind

/-- Make one call. -/
def perform (c : C) : Prog C R R := call c ret

@[simp] theorem pure_eq (a : α) : (pure a : Prog C R α) = ret a := rfl
@[simp] theorem ret_bind (a : α) (f : α → Prog C R β) : ret a >>= f = f a := rfl
@[simp] theorem call_bind (c : C) (k : R → Prog C R α) (f : α → Prog C R β) :
    call c k >>= f = call c fun r => k r >>= f := rfl

instance : LawfulMonad (Prog C R) := LawfulMonad.mk' _
  (fun p => by
    change p.bind (fun a => ret a) = p
    induction p with
    | ret a => rfl
    | call c k ih => exact congrArg (call c) (funext ih))
  (fun _ _ => rfl)
  (fun p f g => by
    change (p.bind f).bind g = p.bind fun a => (f a).bind g
    induction p with
    | ret a => rfl
    | call c k ih => exact congrArg (call c) (funext ih))

section Run

variable {S : Type} {env : S → C → R → S → Prop}

/-- A run of a program: the state before, the state after, and the result. -/
inductive Runs (env : S → C → R → S → Prop) : S → Prog C R α → S → α → Prop
  | ret {s : S} {a : α} : Runs env s (.ret a) s a
  | call {s s' s'' : S} {c : C} {r : R} {k : R → Prog C R α} {a : α} (he : env s c r s') (h : Runs env s' (k r) s'' a) :
      Runs env s (.call c k) s'' a

theorem runs_ret {s s' : S} {a b : α} : Runs env s (.ret a) s' b ↔ s' = s ∧ b = a := by
  constructor
  · intro h
    cases h
    exact ⟨rfl, rfl⟩
  · rintro ⟨rfl, rfl⟩
    exact .ret

theorem runs_call {s s'' : S} {c : C} {k : R → Prog C R α} {a : α} :
    Runs env s (.call c k) s'' a ↔ ∃ r s', env s c r s' ∧ Runs env s' (k r) s'' a := by
  constructor
  · intro h
    cases h with
    | call he h => exact ⟨_, _, he, h⟩
  · rintro ⟨r, s', he, h⟩
    exact .call he h

/-- A run of a sequence is a run of the first program and then one of the second. -/
theorem runs_bind {p : Prog C R α} {f : α → Prog C R β} {s s'' : S} {b : β} :
    Runs env s (p >>= f) s'' b ↔ ∃ s' a, Runs env s p s' a ∧ Runs env s' (f a) s'' b := by
  induction p generalizing s with
  | ret a =>
    simp only [ret_bind, runs_ret]
    constructor
    · exact fun h => ⟨s, a, ⟨rfl, rfl⟩, h⟩
    · rintro ⟨s', a', ⟨rfl, rfl⟩, h⟩
      exact h
  | call c k ih =>
    simp only [call_bind, runs_call, ih]
    constructor
    · rintro ⟨r, s1, he, s2, a, h1, h2⟩
      exact ⟨s2, a, ⟨r, s1, he, h1⟩, h2⟩
    · rintro ⟨s2, a, ⟨r, s1, he, h1⟩, h2⟩
      exact ⟨r, s1, he, s2, a, h1, h2⟩

/-- A run of a program and then of the blocks `body` it leads to, until one leaves with a result. -/
inductive Loop {Φ ρ : Type} (env : S → C → R → S → Prop) (body : Φ → Prog C R (Except ρ Φ)) :
    S → Prog C R (Except ρ Φ) → S → ρ → Prop
  | leave {s s' : S} {p : Prog C R (Except ρ Φ)} {x : ρ} (h : Runs env s p s' (.error x)) : Loop env body s p s' x
  | next {s s' s'' : S} {p : Prog C R (Except ρ Φ)} {ph : Φ} {x : ρ} (h : Runs env s p s' (.ok ph))
      (hl : Loop env body s' (body ph) s'' x) : Loop env body s p s'' x

theorem Runs.mono {env' : S → C → R → S → Prop} (hE : ∀ s c r s', env s c r s' → env' s c r s') {p : Prog C R α} {s s' : S}
    {a : α} (h : Runs env s p s' a) : Runs env' s p s' a := by
  induction h with
  | ret => exact .ret
  | call he _ ih => exact .call (hE _ _ _ _ he) ih

theorem Loop.mono {Φ ρ : Type} {env' : S → C → R → S → Prop} (hE : ∀ s c r s', env s c r s' → env' s c r s')
    {body : Φ → Prog C R (Except ρ Φ)} {p : Prog C R (Except ρ Φ)} {s s' : S} {x : ρ} (h : Loop env body s p s' x) :
    Loop env' body s p s' x := by
  induction h with
  | leave h => exact .leave (h.mono hE)
  | next h _ ih => exact .next (h.mono hE) ih

/-- Total correctness. -/
def Wp (env : S → C → R → S → Prop) : Prog C R α → (α → S → Prop) → S → Prop
  | ret a, Q, s => Q a s
  | call c k, Q, s => (∃ r s', env s c r s') ∧ ∀ r s', env s c r s' → Wp env (k r) Q s'

@[simp] theorem wp_ret (a : α) (Q : α → S → Prop) (s : S) : Wp env (.ret a) Q s ↔ Q a s := Iff.rfl

theorem Wp.mono {p : Prog C R α} {Q Q' : α → S → Prop} (hQ : ∀ a s, Q a s → Q' a s) {s : S} (h : Wp env p Q s) :
    Wp env p Q' s := by
  induction p generalizing s with
  | ret a => exact hQ a s h
  | call c k ih => exact ⟨h.1, fun r s' he => ih r (h.2 r s' he)⟩

/-- A program that is correct in `env` is correct where there are fewer answers, but one for each call that `env`
answers. -/
theorem Wp.of_env {env' : S → C → R → S → Prop} {p : Prog C R α} {Q : α → S → Prop}
    (hE : ∀ s c, (∃ r s', env s c r s') → (∃ r s', env' s c r s') ∧ ∀ r s', env' s c r s' → env s c r s') {s : S}
    (h : Wp env p Q s) : Wp env' p Q s := by
  induction p generalizing s with
  | ret a => exact h
  | call c k ih =>
    obtain ⟨hex, hall⟩ := hE s c h.1
    exact ⟨hex, fun r s' he => ih r (h.2 r s' (hall r s' he))⟩

theorem wp_bind (p : Prog C R α) (f : α → Prog C R β) (Q : β → S → Prop) {s : S} :
    Wp env (p >>= f) Q s ↔ Wp env p (fun a s' => Wp env (f a) Q s') s := by
  induction p generalizing s with
  | ret a => exact Iff.rfl
  | call c k ih => exact and_congr_right fun _ => forall_congr' fun r => forall₂_congr fun s' _ => ih r

/-- Every run ends as promised. -/
theorem Wp.run {p : Prog C R α} {Q : α → S → Prop} {s s' : S} {a : α} (h : Wp env p Q s) (hr : Runs env s p s' a) :
    Q a s' := by
  induction hr with
  | ret => exact h
  | call he _ ih => exact ih (h.2 _ _ he)

/-- And there is a run. -/
theorem Wp.ends {p : Prog C R α} {Q : α → S → Prop} {s : S} (h : Wp env p Q s) :
    ∃ s' a, Runs env s p s' a ∧ Q a s' := by
  induction p generalizing s with
  | ret a => exact ⟨s, a, .ret, h⟩
  | call c k ih =>
    obtain ⟨⟨r, s', he⟩, hk⟩ := h
    obtain ⟨s'', a, hr, hQ⟩ := ih r (hk r s' he)
    exact ⟨s'', a, .call he hr, hQ⟩

/-! ### Loops that end -/

section LoopWp

variable {Φ ρ : Type} {body : Φ → Prog C R (Except ρ Φ)} {Q Q' : ρ → S → Prop}

/-- Total correctness of a loop: from `s` every run leaves within `n` blocks, with a result that satisfies `Q`. -/
def LoopWp (env : S → C → R → S → Prop) (body : Φ → Prog C R (Except ρ Φ)) (Q : ρ → S → Prop) :
    Nat → Prog C R (Except ρ Φ) → S → Prop
  | 0, _, _ => False
  | n + 1, p, s => Wp env p (fun x s' => match x with
      | .error x => Q x s'
      | .ok φ => LoopWp env body Q n (body φ) s') s

theorem LoopWp.mono (hQ : ∀ x s, Q x s → Q' x s) : ∀ {n : Nat} {p : Prog C R (Except ρ Φ)} {s : S},
    LoopWp env body Q n p s → LoopWp env body Q' n p s
  | n + 1, _, _, h => Wp.mono (fun x s' hx => by
      cases x with
      | error x => exact hQ x s' hx
      | ok φ => exact LoopWp.mono hQ hx) h

theorem LoopWp.of_env {env' : S → C → R → S → Prop}
    (hE : ∀ s c, (∃ r s', env s c r s') → (∃ r s', env' s c r s') ∧ ∀ r s', env' s c r s' → env s c r s') :
    ∀ {n : Nat} {p : Prog C R (Except ρ Φ)} {s : S}, LoopWp env body Q n p s → LoopWp env' body Q n p s
  | n + 1, _, _, h => (Wp.of_env hE h).mono fun x s' hx => by
      cases x with
      | error x => exact hx
      | ok φ => exact LoopWp.of_env hE hx

/-- Every run of the loop ends as promised. -/
theorem LoopWp.run : ∀ {n : Nat} {p : Prog C R (Except ρ Φ)} {s s' : S} {x : ρ}, LoopWp env body Q n p s →
    Loop env body s p s' x → Q x s'
  | n + 1, p, s, s', x, h, hl => by
    rw [LoopWp] at h
    cases hl with
    | leave hr => exact h.run hr
    | next hr hl => exact LoopWp.run (h.run hr) hl

/-- And there is a run. -/
theorem LoopWp.ends : ∀ {n : Nat} {p : Prog C R (Except ρ Φ)} {s : S}, LoopWp env body Q n p s →
    ∃ s' x, Loop env body s p s' x ∧ Q x s'
  | n + 1, p, s, h => by
    obtain ⟨s', x, hr, hx⟩ := Wp.ends h
    cases x with
    | error x => exact ⟨s', x, .leave hr, hx⟩
    | ok φ =>
      obtain ⟨s'', x, hl, hq⟩ := LoopWp.ends hx
      exact ⟨s'', x, .next hr hl, hq⟩

/-! ### Runs that may happen -/

/-- Some run ends like this. -/
def May (env : S → C → R → S → Prop) (p : Prog C R α) (P : α → S → Prop) (s : S) : Prop :=
  ∃ s' a, Runs env s p s' a ∧ P a s'

theorem Wp.may {p : Prog C R α} {P : α → S → Prop} {s : S} (h : Wp env p P s) : May env p P s := h.ends

theorem May.mono {p : Prog C R α} {P P' : α → S → Prop} (hP : ∀ a s, P a s → P' a s) {s : S} (h : May env p P s) :
    May env p P' s := by
  obtain ⟨s', a, hr, ha⟩ := h
  exact ⟨s', a, hr, hP a s' ha⟩

theorem may_call {c : C} {k : R → Prog C R α} {P : α → S → Prop} {s : S} (r : R) (s' : S) (he : env s c r s')
    (h : May env (k r) P s') : May env (.call c k) P s := by
  obtain ⟨s'', a, hr, ha⟩ := h
  exact ⟨s'', a, .call he hr, ha⟩

theorem may_bind {p : Prog C R α} {f : α → Prog C R β} {P : β → S → Prop} {s : S}
    (h : May env p (fun a s' => May env (f a) P s') s) : May env (p >>= f) P s := by
  obtain ⟨s', a, hr, s'', b, hr', hb⟩ := h
  exact ⟨s'', b, runs_bind.mpr ⟨s', a, hr, hr'⟩, hb⟩

/-- A run that ends badly is one too many. -/
theorem May.not_wp {p : Prog C R α} {P P' : α → S → Prop} {s : S} (h : May env p P s) (hn : ∀ a s', P a s' → ¬ P' a s') :
    ¬ Wp env p P' s := fun hw => by
  obtain ⟨s', a, hr, ha⟩ := h
  exact hn a s' ha (hw.run hr)

/-- Some run of the loop ends like this. -/
def LoopMay (env : S → C → R → S → Prop) (body : Φ → Prog C R (Except ρ Φ)) (P : ρ → S → Prop)
    (p : Prog C R (Except ρ Φ)) (s : S) : Prop := ∃ s' x, Loop env body s p s' x ∧ P x s'

theorem loopMay {P : ρ → S → Prop} {p : Prog C R (Except ρ Φ)} {s : S} (h : May env p (fun x s' => match x with
      | .error x => P x s'
      | .ok φ => LoopMay env body P (body φ) s') s) : LoopMay env body P p s := by
  obtain ⟨s', x, hr, hx⟩ := h
  cases x with
  | error x => exact ⟨s', x, .leave hr, hx⟩
  | ok φ =>
    obtain ⟨s'', x, hl, hP⟩ := hx
    exact ⟨s'', x, .next hr hl, hP⟩

theorem LoopWp.may {n : Nat} {p : Prog C R (Except ρ Φ)} {s : S} (h : LoopWp env body Q n p s) :
    LoopMay env body Q p s := h.ends

end LoopWp

end Run

/-! ## Traces -/

section Trace

variable {Φ ρ : Type}

/-- Every answer that passes `ok` is possible, and recorded. -/
def traced (ok : C → R → Bool) (τ : List (C × R)) (c : C) (r : R) (τ' : List (C × R)) : Prop :=
  ok c r = true ∧ τ' = τ ++ [(c, r)]

variable {ok : C → R → Bool}

/-- A trace only grows. -/
theorem Runs.grows {p : Prog C R α} {τ τ' : List (C × R)} {a : α} (h : Runs (traced ok) τ p τ' a) : τ <+: τ' := by
  induction h with
  | ret => exact List.prefix_rfl
  | call he _ ih =>
    obtain ⟨-, rfl⟩ := he
    exact (List.prefix_append _ _).trans ih

/-- What a trace records was possible. -/
theorem Runs.answered {p : Prog C R α} {τ τ' : List (C × R)} {a : α} (h : Runs (traced ok) τ p τ' a)
    (h0 : ∀ e ∈ τ, ok e.1 e.2 = true) : ∀ e ∈ τ', ok e.1 e.2 = true := by
  induction h with
  | ret => exact h0
  | call he _ ih =>
    obtain ⟨hok, rfl⟩ := he
    refine ih fun e hm => ?_
    rcases List.mem_append.mp hm with hm | hm
    · exact h0 e hm
    · rw [List.mem_singleton.mp hm]
      exact hok

/-- Run a program on a list of answers: the calls made, the result, and the answers left. -/
def feed (ok : C → R → Bool) : Prog C R α → List R → Option (List (C × R) × α × List R)
  | ret a, rs => some ([], a, rs)
  | call _ _, [] => none
  | call c k, r :: rs => if ok c r then (feed ok (k r) rs).map fun x => ((c, r) :: x.1, x.2) else none

theorem runs_of_feed : ∀ {p : Prog C R α} {rs : List R} {x : List (C × R) × α × List R} {τ : List (C × R)},
    feed ok p rs = some x → Runs (traced ok) τ p (τ ++ x.1) x.2.1
  | ret a, rs, x, τ, h => by
    cases h
    simpa using Runs.ret
  | call c k, [], x, τ, h => by cases h
  | call c k, r :: rs, x, τ, h => by
    simp only [feed] at h
    split at h
    · rename_i hok
      obtain ⟨y, hy, rfl⟩ := Option.map_eq_some_iff.mp h
      refine .call ⟨hok, rfl⟩ ?_
      have : Runs (traced ok) (τ ++ [(c, r)]) (k r) (τ ++ [(c, r)] ++ y.1) y.2.1 := runs_of_feed hy
      simpa using this
    · cases h

/-- Run at most `n` blocks on a list of answers: the calls made, and the result. -/
def feedLoop (ok : C → R → Bool) (body : Φ → Prog C R (Except ρ Φ)) :
    Nat → Prog C R (Except ρ Φ) → List R → Option (List (C × R) × ρ)
  | 0, _, _ => none
  | n + 1, p, rs =>
    match feed ok p rs with
    | none => none
    | some (τ, .error x, _) => some (τ, x)
    | some (τ, .ok ph, rs') => (feedLoop ok body n (body ph) rs').map fun y => (τ ++ y.1, y.2)

theorem loop_of_feedLoop {body : Φ → Prog C R (Except ρ Φ)} : ∀ {n : Nat} {p : Prog C R (Except ρ Φ)}
    {rs : List R} {τ : List (C × R)} {y : List (C × R) × ρ}, feedLoop ok body n p rs = some y →
      Loop (traced ok) body τ p (τ ++ y.1) y.2
  | 0, _, _, _, _, h => by cases h
  | n + 1, p, rs, τ, y, h => by
    simp only [feedLoop] at h
    split at h
    · cases h
    · rename_i hf
      cases h
      exact .leave (runs_of_feed hf)
    · rename_i tr ph rs' hf
      obtain ⟨z, hz, rfl⟩ := Option.map_eq_some_iff.mp h
      refine .next (runs_of_feed hf) ?_
      rw [← List.append_assoc]
      exact loop_of_feedLoop hz

end Trace

end Prog

end Conc
