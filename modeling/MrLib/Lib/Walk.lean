import MrLib.Lib.Safe

/-!
# What a program has done so far

A program with loops (`start`, and then the blocks `body`) that makes its calls among those of others is known by the
list `τ` of its own calls with their answers: `Trod start body τ p` says that it has come to `p` by them.

`Walks env s τ s'` runs an environment along `τ`. `Trod.wp` is the rule: a program that is totally correct in `env` is
totally correct from where it has come to, if its answers were those of `env`, and `Trod.safe` is the same for partial
correctness. What the program has said and heard can then be read off the state in which `env` is (`Walks.mono`,
`Walks.inv`). A whole run whose calls `env` walks along is a run in `env` (`Runs.walk`, `Loop.walk`).
-/

namespace Conc.Prog

variable {C R S Φ ρ α : Type} {env env' : S → C → R → S → Prop}

/-- The calls `τ` lead from `s` to `s'`. -/
inductive Walks (env : S → C → R → S → Prop) (s : S) : List (C × R) → S → Prop
  | nil : Walks env s [] s
  | snoc {s' s'' : S} {τ : List (C × R)} {c : C} {r : R} (h : Walks env s τ s') (he : env s' c r s'') :
      Walks env s (τ ++ [(c, r)]) s''

theorem Walks.mono (hE : ∀ s c r s', env s c r s' → env' s c r s') {s s' : S} {τ : List (C × R)}
    (h : Walks env s τ s') : Walks env' s τ s' := by
  induction h with
  | nil => exact .nil
  | snoc _ he ih => exact .snoc ih (hE _ _ _ _ he)

/-- What every call keeps. -/
theorem Walks.inv {I : List (C × R) → S → Prop} {s s' : S} {τ : List (C × R)} (h : Walks env s τ s') (h0 : I [] s)
    (hs : ∀ τ s c r s', I τ s → env s c r s' → I (τ ++ [(c, r)]) s') : I τ s' := by
  induction h with
  | nil => exact h0
  | snoc _ he ih => exact hs _ _ _ _ _ ih he

theorem walks_nil {s s' : S} : Walks env s [] s' ↔ s' = s := by
  constructor
  · intro h
    generalize hτ : ([] : List (C × R)) = τ at h
    cases h with
    | nil => rfl
    | snoc h he => simp at hτ
  · rintro rfl
    exact .nil

theorem walks_snoc {s s'' : S} {τ : List (C × R)} {c : C} {r : R} :
    Walks env s (τ ++ [(c, r)]) s'' ↔ ∃ s', Walks env s τ s' ∧ env s' c r s'' := by
  constructor
  · intro h
    generalize hτ : τ ++ [(c, r)] = τ' at h
    cases h with
    | nil => simp at hτ
    | snoc h he =>
      obtain ⟨rfl, hx⟩ := List.append_inj' hτ rfl
      cases hx
      exact ⟨_, h, he⟩
  · rintro ⟨s', h, he⟩
    exact .snoc h he

/-- The calls of a run on a trace are made in an environment that the trace walks along. -/
theorem Runs.walk {ok : C → R → Bool} {p : Prog C R α} {τ τ' : List (C × R)} {a : α} {s s' : S}
    (h : Runs (traced ok) τ p τ' a) (hw : Walks env s τ' s') : ∃ s₁, Walks env s τ s₁ ∧ Runs env s₁ p s' a := by
  induction h with
  | ret => exact ⟨s', hw, .ret⟩
  | call he _ ih =>
    obtain ⟨-, rfl⟩ := he
    obtain ⟨s₂, hw, hr⟩ := ih hw
    obtain ⟨s₁, hw, he⟩ := walks_snoc.mp hw
    exact ⟨s₁, hw, .call he hr⟩

/-- And so are those of a program with loops. -/
theorem Loop.walk {ok : C → R → Bool} {body : Φ → Prog C R (Except ρ Φ)} {p : Prog C R (Except ρ Φ)}
    {τ τ' : List (C × R)} {x : ρ} {s s' : S} (h : Loop (traced ok) body τ p τ' x) (hw : Walks env s τ' s') :
    ∃ s₁, Walks env s τ s₁ ∧ Loop env body s₁ p s' x := by
  induction h with
  | leave h =>
    obtain ⟨s₁, hw, hr⟩ := h.walk hw
    exact ⟨s₁, hw, .leave hr⟩
  | next h _ ih =>
    obtain ⟨s₂, hw, hl⟩ := ih hw
    obtain ⟨s₁, hw, hr⟩ := h.walk hw
    exact ⟨s₁, hw, .next hr hl⟩

/-- Run a program on the answers of an environment that is a function. -/
def enact (answer : S → C → R) (post : S → C → R → Option S) : S → Prog C R α → Option (List (C × R) × S × α)
  | s, .ret a => some ([], s, a)
  | s, .call c k =>
    match post s c (answer s c) with
    | some s' => (enact answer post s' (k (answer s c))).map fun x => ((c, answer s c) :: x.1, x.2)
    | none => none

/-- Run at most `n` blocks. -/
def enactLoop (answer : S → C → R) (post : S → C → R → Option S) (body : Φ → Prog C R (Except ρ Φ)) :
    Nat → S → Prog C R (Except ρ Φ) → Option (List (C × R) × S × ρ)
  | 0, _, _ => none
  | n + 1, s, p =>
    match enact answer post s p with
    | none => none
    | some (τ, s', .error x) => some (τ, s', x)
    | some (τ, s', .ok ph) => (enactLoop answer post body n s' (body ph)).map fun y => (τ ++ y.1, y.2)

section Enact

variable {answer : S → C → R} {post : S → C → R → Option S} {ok : C → R → Bool} {s₀ : S}

theorem runs_of_enact (he : ∀ s c r s', post s c r = some s' → ok c r = true ∧ env s c r s') :
    ∀ {p : Prog C R α} {s : S} {τ₀ : List (C × R)} {x : List (C × R) × S × α}, Walks env s₀ τ₀ s →
      enact answer post s p = some x → Runs (traced ok) τ₀ p (τ₀ ++ x.1) x.2.2 ∧ Walks env s₀ (τ₀ ++ x.1) x.2.1
  | .ret a, s, τ₀, x, hw, h => by
    cases h
    rw [List.append_nil]
    exact ⟨.ret, hw⟩
  | .call c k, s, τ₀, x, hw, h => by
    simp only [enact] at h
    split at h
    · rename_i s' hs
      obtain ⟨y, hy, rfl⟩ := Option.map_eq_some_iff.mp h
      obtain ⟨hok, henv⟩ := he _ _ _ _ hs
      obtain ⟨hr, hw⟩ := runs_of_enact he (hw.snoc henv) hy
      simp only [List.append_assoc, List.cons_append, List.nil_append] at hr hw
      exact ⟨.call ⟨hok, rfl⟩ hr, hw⟩
    · cases h

theorem loop_of_enactLoop (he : ∀ s c r s', post s c r = some s' → ok c r = true ∧ env s c r s')
    {body : Φ → Prog C R (Except ρ Φ)} : ∀ {n : Nat} {p : Prog C R (Except ρ Φ)} {s : S} {τ₀ : List (C × R)}
      {y : List (C × R) × S × ρ}, Walks env s₀ τ₀ s → enactLoop answer post body n s p = some y →
        Loop (traced ok) body τ₀ p (τ₀ ++ y.1) y.2.2 ∧ Walks env s₀ (τ₀ ++ y.1) y.2.1
  | 0, _, _, _, _, _, h => by cases h
  | n + 1, p, s, τ₀, y, hw, h => by
    simp only [enactLoop] at h
    split at h
    · cases h
    · rename_i hp
      cases h
      obtain ⟨hr, hw⟩ := runs_of_enact he hw hp
      exact ⟨.leave hr, hw⟩
    · rename_i τ s' ph hp
      obtain ⟨z, hz, rfl⟩ := Option.map_eq_some_iff.mp h
      obtain ⟨hr, hw⟩ := runs_of_enact he hw hp
      obtain ⟨hl, hw⟩ := loop_of_enactLoop he hw hz
      rw [← List.append_assoc]
      exact ⟨.next hr hl, hw⟩

end Enact

/-- What is left of a program with loops when it has made the calls `τ`. -/
inductive Trod (start : Prog C R (Except ρ Φ)) (body : Φ → Prog C R (Except ρ Φ)) :
    List (C × R) → Prog C R (Except ρ Φ) → Prop
  | start : Trod start body [] start
  | call {τ : List (C × R)} {c : C} {k : R → Prog C R (Except ρ Φ)} (r : R) (h : Trod start body τ (.call c k)) :
      Trod start body (τ ++ [(c, r)]) (k r)
  | next {τ : List (C × R)} {ph : Φ} (h : Trod start body τ (.ret (.ok ph))) : Trod start body τ (body ph)

/-- **A correct program stays correct** on its way, if the environment may give the answers that it got. -/
theorem Trod.wp {start : Prog C R (Except ρ Φ)} {body : Φ → Prog C R (Except ρ Φ)} {E : Except ρ Φ → S → Prop} {s : S}
    {L : List (C × R) → Prop} (hstart : start.Wp env E s)
    (hbody : ∀ ph s, E (.ok ph) s → (body ph).Wp env E s) (hpre : ∀ τ x, L (τ ++ [x]) → L τ)
    (hans : ∀ τ s' c r, Walks env s τ s' → L (τ ++ [(c, r)]) → (∃ r s'', env s' c r s'') → ∃ s'', env s' c r s'')
    {τ : List (C × R)} {p : Prog C R (Except ρ Φ)} (h : Trod start body τ p) (hl : L τ) :
    ∃ s', Walks env s τ s' ∧ p.Wp env E s' := by
  induction h with
  | start => exact ⟨s, .nil, hstart⟩
  | @call τ c k r h ih =>
    obtain ⟨s', hw, hp⟩ := ih (hpre τ _ hl)
    obtain ⟨s'', he⟩ := hans τ s' c r hw hl hp.1
    exact ⟨s'', .snoc hw he, hp.2 r s'' he⟩
  | @next τ ph h ih =>
    obtain ⟨s', hw, hp⟩ := ih hl
    exact ⟨s', hw, hbody ph s' hp⟩

/-- **A safe program stays safe** on its way. -/
theorem Trod.safe {start : Prog C R (Except ρ Φ)} {body : Φ → Prog C R (Except ρ Φ)} {E : Except ρ Φ → S → Prop}
    {I : S → Prop} {s s' : S} (hstart : Safe env I start E s) (hbody : ∀ ph s, E (.ok ph) s → Safe env I (body ph) E s)
    {τ : List (C × R)} {p : Prog C R (Except ρ Φ)} (h : Trod start body τ p) (hw : Walks env s τ s') :
    Safe env I p E s' := by
  induction h generalizing s' with
  | start =>
    obtain rfl := walks_nil.mp hw
    exact hstart
  | call r h ih =>
    obtain ⟨s1, hw, he⟩ := walks_snoc.mp hw
    exact (ih hw).2 r s' he
  | next h ih => exact hbody _ s' (ih hw).2

/-- The blocks go on where `J` holds. -/
def Onward (J : Φ → Prop) (x : Except ρ Φ) : Prop := ∀ ph, x = .ok ph → J ph

/-- Nor does it make other calls than its blocks. -/
theorem Trod.calls {start : Prog C R (Except ρ Φ)} {body : Φ → Prog C R (Except ρ Φ)} {P : C → Prop} {J : Φ → Prop}
    (hstart : Calls P (Onward J) start) (hbody : ∀ ph, J ph → Calls P (Onward J) (body ph)) {τ : List (C × R)}
    {p : Prog C R (Except ρ Φ)} (h : Trod start body τ p) : Calls P (Onward J) p ∧ ∀ x ∈ τ, P x.1 := by
  induction h with
  | start => exact ⟨hstart, by simp⟩
  | call r _ ih =>
    refine ⟨ih.1.2 r, fun x hx => ?_⟩
    rcases List.mem_append.mp hx with hx | hx
    · exact ih.2 x hx
    · rw [List.mem_singleton.mp hx]
      exact ih.1.1
  | next _ ih => exact ⟨hbody _ (ih.1 _ rfl), ih.2⟩

end Conc.Prog
