import MrLib.Lib.Prog

/-!
# Partial correctness

`Safe env I p Q s`: in every run of `p` from `s`, `I` holds of every state on the way and `Q` of the result and the state
at the end. Nothing is said of whether a call is answered. The rules are `safe_bind` and `Safe.mono`; `Safe.run` and
`Safe.reaches` say what it means, and `Safe.loop` is the rule of a loop with an invariant.

`Calls P R p`: `p` makes only calls that satisfy `P`, and its result satisfies `R`. Code whose calls leave the state alone
leaves it alone (`Calls.safe`). `GivesUp` are the programs that end with an error once a call has failed: what is proved of
them where no call fails is, but for the error, right in all runs (`Wp.givesUp`).
-/

namespace Conc.Prog

variable {C R α β S : Type} {env : S → C → R → S → Prop} {I : S → Prop}

/-- How far a run may have come: `p`, from `s`, has come to `p'` in `s'`. -/
inductive Reaches (env : S → C → R → S → Prop) : S → Prog C R α → S → Prog C R α → Prop
  | refl {s : S} {p : Prog C R α} : Reaches env s p s p
  | call {s s' s'' : S} {c : C} {r : R} {k : R → Prog C R α} {p : Prog C R α} (he : env s c r s')
      (h : Reaches env s' (k r) s'' p) : Reaches env s (.call c k) s'' p

theorem Reaches.trans {p p' p'' : Prog C R α} {s s' s'' : S} (h : Reaches env s p s' p') (h' : Reaches env s' p' s'' p'') :
    Reaches env s p s'' p'' := by
  induction h with
  | refl => exact h'
  | call he _ ih => exact .call he (ih h')

theorem Reaches.bind {p p' : Prog C R α} {f : α → Prog C R β} {s s' : S} (h : Reaches env s p s' p') :
    Reaches env s (p >>= f) s' (p' >>= f) := by
  induction h with
  | refl => exact .refl
  | call he _ ih => exact .call he ih

/-- Partial correctness, with `I` on the way. -/
def Safe (env : S → C → R → S → Prop) (I : S → Prop) : Prog C R α → (α → S → Prop) → S → Prop
  | ret a, Q, s => I s ∧ Q a s
  | call c k, Q, s => I s ∧ ∀ r s', env s c r s' → Safe env I (k r) Q s'

theorem Safe.mono {p : Prog C R α} {Q Q' : α → S → Prop} (hQ : ∀ a s, I s → Q a s → Q' a s) {s : S}
    (h : Safe env I p Q s) : Safe env I p Q' s := by
  induction p generalizing s with
  | ret a => exact ⟨h.1, hQ a s h.1 h.2⟩
  | call c k ih => exact ⟨h.1, fun r s' he => ih r (h.2 r s' he)⟩

theorem safe_bind {p : Prog C R α} {f : α → Prog C R β} {Q : β → S → Prop} {s : S}
    (h : Safe env I p (fun a s' => Safe env I (f a) Q s') s) : Safe env I (p >>= f) Q s := by
  induction p generalizing s with
  | ret a => exact h.2
  | call c k ih => exact ⟨h.1, fun r s' he => ih r (h.2 r s' he)⟩

/-- Every run ends as promised. -/
theorem Safe.run {p : Prog C R α} {Q : α → S → Prop} {s s' : S} {a : α} (h : Safe env I p Q s)
    (hr : Runs env s p s' a) : Q a s' := by
  induction hr with
  | ret => exact h.2
  | call he _ ih => exact ih (h.2 _ _ he)

/-- And what is left of a run is safe too. -/
theorem Safe.reaches {p p' : Prog C R α} {Q : α → S → Prop} {s s' : S} (h : Safe env I p Q s)
    (hr : Reaches env s p s' p') : Safe env I p' Q s' := by
  induction hr with
  | refl => exact h
  | call he _ ih => exact ih (h.2 _ _ he)

theorem Safe.inv {p : Prog C R α} {Q : α → S → Prop} {s : S} (h : Safe env I p Q s) : I s := by
  cases p with
  | ret a => exact h.1
  | call c k => exact h.1

/-- Several things that are safe each are safe together. -/
theorem Safe.and_all {ι : Type} {p : Prog C R α} {Q : α → S → Prop} {Q' : ι → α → S → Prop} {s : S}
    (h : Safe env I p Q s) (h' : ∀ i, Safe env I p (Q' i) s) : Safe env I p (fun a s => Q a s ∧ ∀ i, Q' i a s) s := by
  induction p generalizing s with
  | ret a => exact ⟨h.1, h.2, fun i => (h' i).2⟩
  | call c k ih => exact ⟨h.1, fun r s' he => ih r (h.2 r s' he) fun i => (h' i).2 r s' he⟩

/-! ## Loops -/

section Loop

variable {Φ ρ : Type} {body : Φ → Prog C R (Except ρ Φ)} {J : Φ → S → Prop} {Q : ρ → S → Prop}

/-- How far a run of a loop may have come. -/
inductive LoopReaches (env : S → C → R → S → Prop) (body : Φ → Prog C R (Except ρ Φ)) :
    S → Prog C R (Except ρ Φ) → S → Prog C R (Except ρ Φ) → Prop
  | here {s s' : S} {p p' : Prog C R (Except ρ Φ)} (h : Reaches env s p s' p') : LoopReaches env body s p s' p'
  | next {s s' s'' : S} {p p' : Prog C R (Except ρ Φ)} {ph : Φ} (h : Runs env s p s' (.ok ph))
      (hl : LoopReaches env body s' (body ph) s'' p') : LoopReaches env body s p s'' p'

/-- A block leaves with `Q`, or goes on where `J` holds. -/
def Ends (J : Φ → S → Prop) (Q : ρ → S → Prop) : Except ρ Φ → S → Prop
  | .ok ph, s => J ph s
  | .error x, s => Q x s

/-- **The loop rule**, for the runs that end. -/
theorem Safe.loop (hJ : ∀ ph s, J ph s → Safe env I (body ph) (Ends J Q) s) {p : Prog C R (Except ρ Φ)} {s s' : S}
    {x : ρ} (h : Safe env I p (Ends J Q) s) (hl : Loop env body s p s' x) : Q x s' := by
  induction hl with
  | leave hr => exact h.run hr
  | next hr _ ih => exact ih (hJ _ _ (h.run hr))

/-- And for all of them. -/
theorem Safe.loopReaches (hJ : ∀ ph s, J ph s → Safe env I (body ph) (Ends J Q) s) {p p' : Prog C R (Except ρ Φ)}
    {s s' : S} (h : Safe env I p (Ends J Q) s) (hl : LoopReaches env body s p s' p') :
    Safe env I p' (Ends J Q) s' := by
  induction hl with
  | here hr => exact h.reaches hr
  | next hr _ ih => exact ih (hJ _ _ (h.run hr))

end Loop

/-! ## Runs on given answers -/

section Replay

variable {Φ ρ : Type} {ok : S → C → R → Bool} {post : S → C → R → S}

/-- Run a program on a list of answers: the state, the result, and the answers left. -/
def replay (ok : S → C → R → Bool) (post : S → C → R → S) : S → Prog C R α → List R → Option (S × α × List R)
  | s, ret a, rs => some (s, a, rs)
  | _, call _ _, [] => none
  | s, call c k, r :: rs => if ok s c r then replay ok post (post s c r) (k r) rs else none

theorem runs_of_replay (he : ∀ s c r, ok s c r = true → env s c r (post s c r)) :
    ∀ {p : Prog C R α} {rs : List R} {s : S} {x : S × α × List R},
      replay ok post s p rs = some x → Runs env s p x.1 x.2.1
  | ret a, rs, s, x, h => by
    cases h
    exact .ret
  | call c k, [], s, x, h => by cases h
  | call c k, r :: rs, s, x, h => by
    unfold replay at h
    split at h
    · rename_i hok
      exact .call (he s c r hok) (runs_of_replay he h)
    · cases h

/-- Run at most `n` blocks. -/
def replayLoop (ok : S → C → R → Bool) (post : S → C → R → S) (body : Φ → Prog C R (Except ρ Φ)) :
    Nat → S → Prog C R (Except ρ Φ) → List R → Option (S × ρ)
  | 0, _, _, _ => none
  | n + 1, s, p, rs =>
    match replay ok post s p rs with
    | none => none
    | some (s', .error x, _) => some (s', x)
    | some (s', .ok ph, rs') => replayLoop ok post body n s' (body ph) rs'

theorem loop_of_replay (he : ∀ s c r, ok s c r = true → env s c r (post s c r)) {body : Φ → Prog C R (Except ρ Φ)} :
    ∀ {n : Nat} {s : S} {p : Prog C R (Except ρ Φ)} {rs : List R} {y : S × ρ},
      replayLoop ok post body n s p rs = some y → Loop env body s p y.1 y.2
  | 0, _, _, _, _, h => by cases h
  | n + 1, s, p, rs, y, h => by
    unfold replayLoop at h
    split at h
    · cases h
    · rename_i hf
      cases h
      exact .leave (runs_of_replay he hf)
    · rename_i s' ph rs' hf
      exact .next (runs_of_replay he hf) (loop_of_replay he h)

end Replay

/-! ## The calls of a program -/

/-- Every call that `p` may make satisfies `P`, and its result `R`. -/
def Calls (P : C → Prop) (R' : α → Prop) : Prog C R α → Prop
  | ret a => R' a
  | call c k => P c ∧ ∀ r, Calls P R' (k r)

theorem Calls.bind {P : C → Prop} {R' : α → Prop} {R'' : β → Prop} {p : Prog C R α} {f : α → Prog C R β}
    (h : Calls P R' p) (hf : ∀ a, R' a → Calls P R'' (f a)) : Calls P R'' (p >>= f) := by
  induction p with
  | ret a => exact hf a h
  | call c k ih => exact ⟨h.1, fun r => ih r (h.2 r)⟩

theorem Calls.mono {P P' : C → Prop} {R' R'' : α → Prop} (hP : ∀ c, P c → P' c) (hR : ∀ a, R' a → R'' a)
    {p : Prog C R α} (h : Calls P R' p) : Calls P' R'' p := by
  induction p with
  | ret a => exact hR a h
  | call c k ih => exact ⟨hP c h.1, fun r => ih r (h.2 r)⟩

/-- The result of a run. -/
theorem Calls.runs {P : C → Prop} {R' : α → Prop} {p : Prog C R α} {s s' : S} {a : α} (h : Calls P R' p)
    (hr : Runs env s p s' a) : R' a := by
  induction hr with
  | ret => exact h
  | call he _ ih => exact ih (h.2 _)

/-- What is left of a program makes no other calls. -/
theorem Calls.reaches {P : C → Prop} {R' : α → Prop} {p p' : Prog C R α} {s s' : S} (h : Calls P R' p)
    (hr : Reaches env s p s' p') : Calls P R' p' := by
  induction hr with
  | refl => exact h
  | call he _ ih => exact ih (h.2 _)

/-- Calls that leave the state alone. -/
theorem Calls.safe {P : C → Prop} {R' : α → Prop} {s : S} (hP : ∀ c r s', P c → env s c r s' → s' = s) (hI : I s)
    {p : Prog C R α} (h : Calls P R' p) {Q : α → S → Prop} (hQ : ∀ a, R' a → Q a s) : Safe env I p Q s := by
  induction p with
  | ret a => exact ⟨hI, hQ a h⟩
  | call c k ih =>
    refine ⟨hI, fun r s' he => ?_⟩
    obtain rfl := hP c r s' h.1 he
    exact ih r (h.2 r)

/-- What is kept by calls that satisfy `P`. -/
theorem Calls.keeps {P : C → Prop} {R' : α → Prop} {J : S → Prop} (hP : ∀ s c r s', J s → P c → env s c r s' → J s')
    {p : Prog C R α} (h : Calls P R' p) {s : S} (hJ : J s) : Safe env (fun _ => True) p (fun a s => R' a ∧ J s) s := by
  induction p generalizing s with
  | ret a => exact ⟨trivial, h, hJ⟩
  | call c k ih => exact ⟨trivial, fun r s' he => ih r (h.2 r) (hP s c r s' hJ h.1 he)⟩

/-- **A program that is totally correct in `env` is safe in `env'`**, if every answer that `env'` gives to a call that `env`
answers, and that satisfies `P`, is one of `env` in the related state. -/
theorem Wp.safe {S' : Type} {env' : S' → C → R → S' → Prop} {rel : S → S' → Prop} {P : C → Prop} {R' : α → Prop}
    (hE : ∀ s v c r v', rel s v → P c → (∃ r s', env s c r s') → env' v c r v' → ∃ s', env s c r s' ∧ rel s' v')
    {p : Prog C R α} {Q : α → S → Prop} {s : S} {v : S'} (hc : Calls P R' p) (h : Wp env p Q s) (hr : rel s v) :
    Safe env' (fun _ => True) p (fun a v => R' a ∧ ∃ s, rel s v ∧ Q a s) v := by
  induction p generalizing s v with
  | ret a => exact ⟨trivial, hc, s, hr, h⟩
  | call c k ih =>
    refine ⟨trivial, fun r v' he => ?_⟩
    obtain ⟨s', he', hr'⟩ := hE s v c r v' hr hc.1 h.1 he
    exact ih r (hc.2 r) (h.2 r s' he') hr'

/-! ## Programs that give up -/

/-- As soon as a call does not return what it should, `p` ends with `F`, whatever is returned from there on. An answer `r` is as
it should be if it stands for an `r'`: the program goes on in the same way. -/
def GivesUp (stands : C → R → R → Prop) (F : α → Prop) : Prog C R α → Prop
  | ret _ => True
  | call c k => ∀ r, Calls (fun _ => True) F (k r) ∨ (∃ r', stands c r r' ∧ k r = k r') ∧ GivesUp stands F (k r)

section GivesUp

variable {stands : C → R → R → Prop} {D : α → Prop} {F : β → Prop}

theorem GivesUp.bind {p : Prog C R α} {f : α → Prog C R β} (hp : GivesUp stands D p)
    (hD : ∀ a, D a → Calls (fun _ => True) F (f a)) (hf : ∀ a, GivesUp stands F (f a)) : GivesUp stands F (p >>= f) := by
  induction p with
  | ret a => exact hf a
  | call c k ih =>
    intro r
    rcases hp r with hr | ⟨⟨r', hs, hk⟩, hr⟩
    · exact .inl (hr.bind hD)
    · exact .inr ⟨⟨r', hs, congrArg (· >>= f) hk⟩, ih r hr⟩

/-- An error path has given up already. -/
theorem Calls.givesUp {p : Prog C R β} (h : Calls (fun _ => True) F p) : GivesUp stands F p := by
  cases p with
  | ret a => exact trivial
  | call c k => exact fun r => .inl (h.2 r)

/-- **A program that is totally correct in `env`** is safe in `env'`, where calls may fail besides: it gives up or does what it
should. -/
theorem Wp.givesUp {env env' : S → C → R → S → Prop} (hE : ∀ s c r r' s', env' s c r s' → stands c r r' →
      (∃ r s', env s c r s') → env s c r' s')
    {p : Prog C R β} {Q : β → S → Prop} {s : S} (hg : GivesUp stands F p) (h : Wp env p Q s) :
    Safe env' (fun _ => True) p (fun a s' => F a ∨ Q a s') s := by
  induction p generalizing s with
  | ret a => exact ⟨trivial, .inr h⟩
  | call c k ih =>
    refine ⟨trivial, fun r s' he => ?_⟩
    rcases hg r with hr | ⟨⟨r', hs, hk⟩, hr⟩
    · exact (hr.keeps (J := fun _ => True) (fun _ _ _ _ _ _ _ => trivial) trivial).mono fun a _ _ ha => .inl ha.1
    · refine ih r hr ?_
      rw [hk]
      exact h.2 r' s' (hE s c r r' s' he hs h.1)

end GivesUp

end Conc.Prog
