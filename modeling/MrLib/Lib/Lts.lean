import Mathlib.Logic.Basic

/-!
# Transition systems with an executable step function

`Lts S A` has one initial state and a step function `S → A → Option S`: the action `a` carries every choice the
environment makes (which thread runs, what a call returns), so that a step is a function of the state and the action.

* `Reach T P s`: `s` is reached by steps that all satisfy `P`.
* `Reach.inv`: an invariant that the initial state has and that every step satisfying `P` keeps holds of every
  state reached.
* `runP` runs a list of actions and checks `P` on the way (`reach_of_runP`), so that a concrete run is a proof of
  reachability.
* `Sim` is a forward simulation through a relation, `Sim.reach` carries reachability along it.
-/

namespace Conc

/-- A transition system. -/
structure Lts (S A : Type) where
  init : S
  step : S → A → Option S

variable {S A S' A' : Type}

/-- The states reached by steps that satisfy `P`. -/
inductive Reach (T : Lts S A) (P : S → A → Prop) : S → Prop
  | init : Reach T P T.init
  | step {s s' : S} {a : A} : Reach T P s → P s a → T.step s a = some s' → Reach T P s'

/-- **The invariant rule.** -/
theorem Reach.inv {T : Lts S A} {P : S → A → Prop} {I : S → Prop} (h0 : I T.init)
    (hs : ∀ s a s', I s → P s a → T.step s a = some s' → I s') {s : S} (h : Reach T P s) : I s := by
  induction h with
  | init => exact h0
  | step _ hp he ih => exact hs _ _ _ ih hp he

/-- The invariant rule, with an invariant `J` already known of every state reached. -/
theorem Reach.inv_of {T : Lts S A} {P : S → A → Prop} {I J : S → Prop} (hJ : ∀ s, Reach T P s → J s)
    (h0 : I T.init) (hs : ∀ s a s', J s → J s' → I s → P s a → T.step s a = some s' → I s') {s : S}
    (h : Reach T P s) : I s := by
  induction h with
  | init => exact h0
  | step hr hp he ih => exact hs _ _ _ (hJ _ hr) (hJ _ (.step hr hp he)) ih hp he

/-- A weaker condition on the steps reaches more. -/
theorem Reach.mono {T : Lts S A} {P Q : S → A → Prop} (hPQ : ∀ s a, P s a → Q s a) {s : S} (h : Reach T P s) :
    Reach T Q s := by
  induction h with
  | init => exact .init
  | step _ hp he ih => exact .step ih (hPQ _ _ hp) he

/-- What holds of every state reached may be assumed in every step. -/
theorem Reach.assume {T : Lts S A} {P : S → A → Prop} {J : S → Prop} (hJ : ∀ s, Reach T P s → J s) {s : S}
    (h : Reach T P s) : Reach T (fun s a => P s a ∧ J s) s := by
  induction h with
  | init => exact .init
  | step hr hp he ih => exact .step ih ⟨hp, hJ _ hr⟩ he

/-- Run a list of actions from `s`, checking `P` at every step. -/
def runP (T : Lts S A) (P : S → A → Bool) : S → List A → Option S
  | s, [] => some s
  | s, a :: as => if P s a then (T.step s a).bind fun s' => runP T P s' as else none

/-- Reachability continues along a checked run. -/
theorem reach_runP {T : Lts S A} {P : S → A → Bool} : ∀ {as : List A} {s s' : S},
    Reach T (fun s a => P s a = true) s → runP T P s as = some s' → Reach T (fun s a => P s a = true) s'
  | [], _, _, h, e => by cases e; exact h
  | a :: as, s, s', h, e => by
    simp only [runP] at e
    split at e
    · rename_i hp
      cases hs : T.step s a with
      | none => rw [hs] at e; cases e
      | some t => rw [hs] at e; exact reach_runP (.step h hp hs) e
    · cases e

/-- A checked run from the initial state to a state that passes a test. -/
theorem reach_of_runP {T : Lts S A} {P : S → A → Bool} (Q : S → Prop) [DecidablePred Q] (as : List A)
    (h : (runP T P T.init as).any (fun s => Q s) = true) : ∃ s, Reach T (fun s a => P s a = true) s ∧ Q s := by
  obtain ⟨s, hs, hq⟩ := (Option.any_eq_true _ _).mp h
  exact ⟨s, reach_runP .init hs, of_decide_eq_true hq⟩

/-- Run a schedule from `s`, checking `P` at every step: `choose` makes an action of each turn. -/
def playP {B : Type} (T : Lts S A) (P : S → A → Bool) (choose : S → B → A) : S → List B → Option S
  | s, [] => some s
  | s, b :: bs => if P s (choose s b) then (T.step s (choose s b)).bind fun s' => playP T P choose s' bs else none

/-- A checked schedule is a run whose steps satisfy what the check says of the actions chosen. -/
theorem reach_playP_of {B : Type} {T : Lts S A} {P : S → A → Bool} {Q : S → A → Prop} {choose : S → B → A}
    (hP : ∀ s b, P s (choose s b) = true → Q s (choose s b)) : ∀ {bs : List B} {s s' : S},
      Reach T Q s → playP T P choose s bs = some s' → Reach T Q s'
  | [], _, _, h, e => by
    cases e
    exact h
  | b :: bs, s, s', h, e => by
    simp only [playP] at e
    split at e
    · rename_i hp
      cases hs : T.step s (choose s b) with
      | none =>
        rw [hs] at e
        cases e
      | some t =>
        rw [hs] at e
        exact reach_playP_of hP (.step h (hP s b hp) hs) e
    · cases e

theorem reach_playP {B : Type} {T : Lts S A} {P : S → A → Bool} {choose : S → B → A} {bs : List B} {s s' : S}
    (h : Reach T (fun s a => P s a = true) s) (e : playP T P choose s bs = some s') :
    Reach T (fun s a => P s a = true) s' :=
  reach_playP_of (Q := fun s a => P s a = true) (fun _ _ hp => hp) h e

/-- A checked schedule from the initial state to a state that passes a test. -/
theorem reach_of_playP {B : Type} {T : Lts S A} {P : S → A → Bool} (choose : S → B → A) (Q : S → Prop)
    [DecidablePred Q] (bs : List B) (h : (playP T P choose T.init bs).any (fun s => Q s) = true) :
    ∃ s, Reach T (fun s a => P s a = true) s ∧ Q s := by
  obtain ⟨s, hs, hq⟩ := (Option.any_eq_true _ _).mp h
  exact ⟨s, reach_playP .init hs, of_decide_eq_true hq⟩

/-- A forward simulation of `T` (its steps satisfying `P`) by `U` (its steps satisfying `Q`): every step is matched by
a step of `U` or by none. -/
structure Sim (T : Lts S A) (P : S → A → Prop) (U : Lts S' A') (Q : S' → A' → Prop) (R : S → S' → Prop) : Prop where
  init : R T.init U.init
  step : ∀ s a s' u, Reach T P s → R s u → P s a → T.step s a = some s' →
    R s' u ∨ ∃ b u', Q u b ∧ U.step u b = some u' ∧ R s' u'

/-- **Simulation.** Every state reached below is related to a state reached above. -/
theorem Sim.reach {T : Lts S A} {P : S → A → Prop} {U : Lts S' A'} {Q : S' → A' → Prop} {R : S → S' → Prop}
    (h : Sim T P U Q R) {s : S} (hr : Reach T P s) : ∃ u, Reach U Q u ∧ R s u := by
  induction hr with
  | init => exact ⟨U.init, .init, h.init⟩
  | step hr hp he ih =>
    obtain ⟨u, hu, hR⟩ := ih
    rcases h.step _ _ _ u hr hR hp he with h' | ⟨b, u', hq, hs, h'⟩
    · exact ⟨u, hu, h'⟩
    · exact ⟨u', .step hu hq hs, h'⟩

end Conc
