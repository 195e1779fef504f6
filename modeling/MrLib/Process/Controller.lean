import MrLib.Process.Pool

/-!
# The pieces the controllers share

The rules of `ctlEnv` and `wkEnv` for a call and what follows it, and what `createWorkers`, `joinAll` and `joinWorkers` do
to the pool as the controller sees it.
-/

namespace MrLib

open Conc Conc.WorkPool

variable {ω α β V : Type} {P : Spec} {job : Heap ω → ω → Sys}

/-! ## Sequential code -/

theorem ioOk_answer (c : Io) : ∃ r, IoOk c r := by
  cases c with
  | log level format => exact ⟨.int 0, trivial⟩
  | writeN fd bs => exact ⟨.int 0, trivial⟩
  | sys e =>
    cases e with
    | uninit n => exact ⟨.sys (.val (.bytes (List.replicate n 0))), .inr (by simp [Sys.mayReturn])⟩
    | stuck => exact ⟨.sys .ok, .inl rfl⟩
    | outside i => exact ⟨.sys .ok, .inl rfl⟩
    | mapper l => exact ⟨.sys (.val (.user (.ret 0))), .inr rfl⟩
    | reducer token values => exact ⟨.sys (.val (.user (.ret 0))), .inr rfl⟩
    | choose => exact ⟨.sys (.val (.op .pop)), .inr rfl⟩
    | processMain child => exact ⟨.sys (.val (.code 0)), .inr rfl⟩
    | _ => exact ⟨.sys .fail, .inr rfl⟩

/-- The environment of sequential code that may get any answer. -/
def anyAnswer (_ : Unit) (c : Io) (r : IoRet) (_ : Unit) : Prop := IoOk c r

theorem wp_anyAnswer (p : IoProg α) : p.Wp anyAnswer (fun _ _ => True) () := by
  induction p with
  | ret a => trivial
  | call c k ih =>
    obtain ⟨r, hr⟩ := ioOk_answer c
    exact ⟨⟨r, (), hr⟩, fun r _ _ => ih r⟩

/-! ## The controller -/

section

variable {Q : Except Int α → Ctl ω × Seen ω → Prop} {v : Ctl ω × Seen ω}

/-- Sequential code of the controller, with a result of which `R` holds. -/
theorem wp_io_spec {R : β → Prop} {p : IoProg β} {k : β → Th ω α} (hp : p.Wp anyAnswer (fun b _ => R b) ())
    (h : ∀ b, R b → (k b).run.Wp (ctlEnv P) Q v) :
    ((liftM (inThread p : ThreadProg ω β) : Th ω β) >>= k).run.Wp (ctlEnv P) Q v := by
  refine wp_inThread (K := fun _ v' => v' = v) (s := ()) ?_ rfl (hp.mono fun b _ hb v' hv => hv ▸ h b hb)
  rintro _ v' rfl c -
  obtain ⟨r, hr⟩ := ioOk_answer c
  refine ⟨⟨_, v', ⟨r, hr, rfl⟩, rfl⟩, ?_⟩
  rintro _ v'' ⟨⟨r0, h0, rfl⟩, rfl⟩
  exact ⟨r0, (), rfl, h0, rfl⟩

/-- The same, with any result. -/
theorem wp_io {p : IoProg β} {k : β → Th ω α} (h : ∀ b, (k b).run.Wp (ctlEnv P) Q v) :
    ((liftM (inThread p : ThreadProg ω β) : Th ω β) >>= k).run.Wp (ctlEnv P) Q v :=
  wp_io_spec (wp_anyAnswer p) fun b _ => h b

theorem wp_note_came {xs : List ω} {k : Unit → Th ω α}
    (h : (k ()).run.Wp (ctlEnv P) Q ({ v.1 with held := v.1.held ++ xs, born := v.1.born ++ xs }, v.2)) :
    (note (.came xs) >>= k).run.Wp (ctlEnv P) Q v := by
  refine wp_th_call ⟨_, _, rfl, rfl⟩ ?_
  rintro _ _ ⟨rfl, rfl⟩
  exact h

theorem wp_note_pair {token value : Bytes} {k : Unit → Th ω α}
    (h : (k ()).run.Wp (ctlEnv P) Q (v.1, { v.2 with pairs := v.2.pairs ++ [(token, value)] })) :
    (note (.pair token value) >>= k).run.Wp (ctlEnv P) Q v := by
  refine wp_th_call ⟨_, _, rfl, rfl⟩ ?_
  rintro _ _ ⟨rfl, rfl⟩
  exact h

theorem wp_note_released {x : ω} {rest : List ω} {k : Unit → Th ω α} (hh : v.1.held = x :: rest)
    (h : (k ()).run.Wp (ctlEnv P) Q ({ v.1 with held := rest, dropped := v.1.dropped ++ [x] }, v.2)) :
    (note (.released x) >>= k).run.Wp (ctlEnv P) Q v := by
  refine wp_th_call ⟨_, _, rfl, rest, hh, rfl⟩ ?_
  rintro _ _ ⟨rfl, rest', hh', rfl⟩
  rw [hh] at hh'
  cases hh'
  exact h

theorem wp_load_held {x : ω} {k : Option Node → Th ω α} (hx : x ∈ v.1.held)
    (h : (k (v.2.heap x)).run.Wp (ctlEnv P) Q v) : (load x >>= k).run.Wp (ctlEnv P) Q v := by
  refine wp_th_call ⟨_, _, rfl, hx, rfl⟩ ?_
  rintro _ _ ⟨rfl, -, rfl⟩
  exact h

theorem wp_share {heap : Heap ω} {k : Unit → Th ω α} (hc : v.1.created = 0)
    (h : (k ()).run.Wp (ctlEnv P) Q (v.1, { v.2 with heap := heap })) : (share heap >>= k).run.Wp (ctlEnv P) Q v := by
  refine wp_th_call ⟨_, _, rfl, hc, rfl⟩ ?_
  rintro _ _ ⟨rfl, -, rfl⟩
  exact h

theorem wp_push {x : ω} {rest : List ω} {k : Int → Th ω α} (hs : v.1.shut = false) (hn : v.1.created = P.workers)
    (hk : v.1.Keeping) (hh : v.1.held = x :: rest) (hok : (k 0).run.Wp (ctlEnv P) Q ({ v.1 with held := rest }, v.2))
    (hfail : (k (-1)).run.Wp (ctlEnv P) Q ({ v.1 with refused := true }, v.2)) :
    (mrQueuePush x >>= k).run.Wp (ctlEnv P) Q v := by
  refine wp_th_call ⟨_, _, hs, hn, hk, rest, hh, .inl ⟨rfl, rfl⟩⟩ ?_
  rintro _ _ ⟨-, -, -, rest', hh', ⟨rfl, rfl⟩ | ⟨rfl, rfl⟩⟩
  · rw [hh] at hh'
    cases hh'
    exact hok
  · exact hfail

theorem wp_close {k : Int → Th ω α} (h : ∀ r, r = 0 ∨ r = -1 → (k r).run.Wp (ctlEnv P) Q ({ v.1 with shut := true }, v.2)) :
    (mrQueueClose >>= k).run.Wp (ctlEnv P) Q v := by
  refine wp_th_call ⟨_, _, .inl rfl, rfl⟩ ?_
  rintro _ _ ⟨rfl | rfl, rfl⟩
  · exact h 0 (.inl rfl)
  · exact h (-1) (.inr rfl)

theorem wp_join {i : Nat} {k : Option Int → Th ω α}
    (hok : ∀ c, (k (some c)).run.Wp (ctlEnv P) Q ({ v.1 with joined := i :: v.1.joined }, v.2))
    (hfail : (k none).run.Wp (ctlEnv P) Q ({ v.1 with joinFailed := true }, v.2)) :
    (thrdJoin i >>= k).run.Wp (ctlEnv P) Q v := by
  refine wp_th_call ⟨_, _, .inr ⟨rfl, rfl⟩⟩ ?_
  rintro _ _ (⟨⟨c, rfl⟩, rfl⟩ | ⟨rfl, rfl⟩)
  · exact hok c
  · exact hfail

theorem wp_create {i : Nat} {k : Int → Th ω α} (hi : i = v.1.created) (hlt : i < P.workers) (hs : v.1.shut = false)
    (hok : (k 0).run.Wp (ctlEnv P) Q ({ v.1 with created := i + 1 }, v.2))
    (hfail : (k (-1)).run.Wp (ctlEnv P) Q ({ v.1 with createFailed := true }, v.2)) :
    (thrdCreate i >>= k).run.Wp (ctlEnv P) Q v := by
  subst hi
  refine wp_th_call ⟨_, _, rfl, hlt, hs, .inr ⟨rfl, rfl⟩⟩ ?_
  rintro _ _ ⟨-, -, -, ⟨rfl, rfl⟩ | ⟨rfl, rfl⟩⟩
  · exact hok
  · exact hfail

end

/-! ## Creating and joining -/

/-- Only joins, of the workers from `a` up to `b`, lie between `v` and `v'`. -/
structure Joins (a b : Nat) (v v' : Ctl ω × Seen ω) : Prop where
  same : v' = ({ v.1 with joined := v'.1.joined, joinFailed := v'.1.joinFailed }, v.2)
  keeps : v.1.joined ⊆ v'.1.joined
  joined : v'.1.joinFailed = true ∨ ∀ i, a ≤ i → i < b → i ∈ v'.1.joined
  failed : v.1.joinFailed = true → v'.1.joinFailed = true

theorem Joins.nil (a : Nat) (v : Ctl ω × Seen ω) : Joins a a v v := ⟨rfl, fun _ h => h, .inr fun i _ _ => by omega, id⟩

theorem Joins.fields {a b : Nat} {v v' : Ctl ω × Seen ω} (h : Joins a b v v') :
    v'.1.created = v.1.created ∧ v'.1.held = v.1.held ∧ v'.1.dropped = v.1.dropped ∧ v'.1.refused = v.1.refused ∧
      v'.1.createFailed = v.1.createFailed ∧ v'.2 = v.2 := by
  rw [h.same]
  simp

/-- One more worker. -/
theorem Joins.cons {a b : Nat} {v v' : Ctl ω × Seen ω} {j : List Nat} {f : Bool}
    (h : Joins (a + 1) b ({ v.1 with joined := j, joinFailed := f }, v.2) v') (hj : v.1.joined ⊆ j)
    (ha : f = true ∨ a ∈ j) (hf : v.1.joinFailed = true → f = true) : Joins a b v v' where
  same := h.same
  keeps := fun i hi => h.keeps (hj hi)
  joined := by
    rcases ha with ha | ha
    · exact .inl (h.failed ha)
    · refine h.joined.imp_right fun hall i hai hib => ?_
      by_cases he : i = a
      · subst he
        exact h.keeps ha
      · exact hall i (by omega) hib
  failed := fun hv => h.failed (hf hv)

theorem joinAll_ctl (P : Spec) : ∀ (todo j : Nat) (v : Ctl ω × Seen ω), (joinAll j todo).run.Wp (ctlEnv P)
    (fun x v' => x = .ok () ∧ Joins j (j + todo) v v') v
  | 0, j, v => ⟨rfl, .nil j v⟩
  | todo + 1, j, v => by
    rw [joinAll]
    have heq : j + 1 + todo = j + (todo + 1) := by omega
    refine wp_join (fun c => ?_) ?_
    · refine (joinAll_ctl P todo (j + 1) _).mono fun x v' h => ⟨h.1, ?_⟩
      rw [← heq]
      exact h.2.cons (f := v.1.joinFailed) (List.subset_cons_self ..) (.inr (List.mem_cons_self ..)) id
    · refine (joinAll_ctl P todo (j + 1) _).mono fun x v' h => ⟨h.1, ?_⟩
      rw [← heq]
      exact h.2.cons (j := v.1.joined) (fun _ h => h) (.inl rfl) fun _ => rfl

/-- `thrd_create` has failed, and the workers there are have been joined: what the controller holds is what it held. -/
structure CreateFailed (v v' : Ctl ω × Seen ω) : Prop where
  held : v'.1.held = v.1.held
  born : v'.1.born = v.1.born
  seen : v'.2 = v.2
  createFailed : v'.1.createFailed = true
  joined : v'.1.joinFailed = true ∨ ∀ i < v'.1.created, i ∈ v'.1.joined

/-- A piece that leaves the thread function with a code of which `X` holds, if it leaves it, and with `R` otherwise. -/
def Leaves (R : V → Prop) (X : Int → V → Prop) : Except Int α → V → Prop
  | .ok _, v => R v
  | .error c, v => X c v

theorem createWorkers_ctl {slots : Nat} {failed : String} {cleanup : Th ω Unit} {X : Int → Ctl ω × Seen ω → Prop} :
    ∀ (todo i : Nat) (v : Ctl ω × Seen ω), v.1.created = i → i + todo = P.workers → v.1.shut = false →
      (∀ v', CreateFailed v v' → cleanup.run.Wp (ctlEnv P) (Leaves (X exitFailure) X) v') →
      (createWorkers slots failed cleanup i todo).run.Wp (ctlEnv P)
        (Leaves (fun v' => v' = ({ v.1 with created := P.workers }, v.2)) X) v
  | 0, i, v, hc, hi, hs, hX => by
    have : v.1.created = P.workers := by omega
    show v = _
    rw [← this]
  | todo + 1, i, v, hc, hi, hs, hX => by
    have rest : (do
        if (← thrdCreate i) ≠ 0 then
          mrLogError failed
          let _ ← mrQueueClose
          joinAll 0 i
          cleanup
          returns exitFailure
        createWorkers slots failed cleanup (i + 1) todo : Th ω Unit).run.Wp (ctlEnv P)
          (Leaves (fun v' => v' = ({ v.1 with created := P.workers }, v.2)) X) v := by
      refine wp_create hc.symm (by omega) hs ?_ ?_
      · refine (createWorkers_ctl todo (i + 1) ({ v.1 with created := i + 1 }, v.2) rfl
          (by omega) hs fun v' h => hX v' ⟨h.held, h.born, h.seen, h.createFailed, h.joined⟩).mono fun x v' h => ?_
        cases x <;> exact h
      · refine wp_io fun _ => wp_close fun _ _ => wp_th_bind ((joinAll_ctl P i 0 _).mono ?_)
        rintro _ v' ⟨rfl, hj⟩
        have hsame := hj.same
        refine wp_th_bind ((hX v' ⟨?_, ?_, ?_, ?_, ?_⟩).mono fun x v'' h => ?_)
        · rw [hsame]
        · rw [hsame]
        · rw [hsame]
        · rw [hsame]
        · refine hj.joined.imp_right fun hall k hk => hall k (Nat.zero_le _) ?_
          rw [hsame] at hk
          simp only at hk
          omega
        · cases x <;> exact h
    rw [createWorkers]
    split
    · exact wp_io fun _ => rest
    · exact rest

/-- The workers have been joined, or a join has failed. -/
theorem joinWorkers_ctl (failed exited : String) : ∀ (todo i : Nat) (v : Ctl ω × Seen ω),
    (joinWorkers failed exited i todo).run.Wp (ctlEnv P)
      (Leaves (fun v' => Joins i (i + todo) v v' ∧ ∀ j, i ≤ j → j < i + todo → j ∈ v'.1.joined)
        fun c v' => c = exitFailure ∧ v'.1.joinFailed = true ∧ Joins i (i + todo) v v') v
  | 0, i, v => ⟨.nil i v, fun j _ _ => by omega⟩
  | todo + 1, i, v => by
    have heq : i + 1 + todo = i + (todo + 1) := by omega
    rw [joinWorkers]
    refine wp_join (fun c => ?_) ?_
    · have rest : (joinWorkers failed exited (i + 1) todo).run.Wp (ctlEnv P)
          (Leaves (fun v' => Joins i (i + (todo + 1)) v v' ∧ ∀ j, i ≤ j → j < i + (todo + 1) → j ∈ v'.1.joined)
            fun c v' => c = exitFailure ∧ v'.1.joinFailed = true ∧ Joins i (i + (todo + 1)) v v')
          ({ v.1 with joined := i :: v.1.joined }, v.2) := by
        refine (joinWorkers_ctl failed exited todo (i + 1) _).mono fun x v' h => ?_
        rw [heq] at h
        have go : Joins (i + 1) (i + (todo + 1)) ({ v.1 with joined := i :: v.1.joined }, v.2) v' →
            Joins i (i + (todo + 1)) v v' := fun hb =>
          hb.cons (f := v.1.joinFailed) (List.subset_cons_self ..) (.inr (List.mem_cons_self ..)) id
        cases x with
        | ok _ =>
          obtain ⟨hj, hall⟩ := h
          refine ⟨go hj, fun j hij hjb => ?_⟩
          by_cases he : j = i
          · subst he
            exact hj.keeps (List.mem_cons_self ..)
          · exact hall j (by omega) hjb
        | error c =>
          obtain ⟨rfl, hf, hb⟩ := h
          exact ⟨rfl, hf, go hb⟩
      show Prog.Wp _ (ExceptT.run (if c ≠ exitSuccess then _ else _)) _ _
      split
      · exact wp_io fun _ => rest
      · exact rest
    · exact wp_io fun _ => ⟨rfl, rfl, rfl, fun _ h => h, .inl rfl, fun _ => rfl⟩

/-- What a return of 0 says about the controller. -/
structure Returned (P : Spec) (c : Ctl ω) : Prop where
  created : c.created = P.workers
  joined : ∀ i < P.workers, i ∈ c.joined
  held : c.held = []
  keeping : c.Keeping

/-! ## A worker -/

section

variable {Q : Except Int α → Wk ω × Heap ω → Prop} {v : Wk ω × Heap ω}

theorem wp_log_wk {level : Level} {format : String} {k : Int → Th ω α}
    (h : ∀ n, (k n).run.Wp (wkEnv P job) Q (stumble n v.1, v.2)) :
    ((liftM (inThread (mrLog level format) : ThreadProg ω Int) : Th ω Int) >>= k).run.Wp (wkEnv P job) Q v := by
  refine wp_io_call ⟨.int 0, _, 0, rfl, rfl⟩ ?_
  rintro _ _ ⟨n, rfl, rfl⟩
  exact ⟨.int n, rfl, h n⟩

theorem wp_logError_wk {format : String} {k : Unit → Th ω α} (hv : v.1 ≠ .idle) (h : (k ()).run.Wp (wkEnv P job) Q v) :
    ((liftM (inThread (mrLogError format) : ThreadProg ω Unit) : Th ω Unit) >>= k).run.Wp (wkEnv P job) Q v := by
  refine wp_io_call ⟨.int 0, _, 0, rfl, rfl⟩ ?_
  rintro _ _ ⟨n, rfl, rfl⟩
  have hst : stumble n v.1 = v.1 := by
    cases hw : v.1 with
    | idle => exact absurd hw hv
    | _ => rfl
  rw [hst]
  exact ⟨.int n, rfl, h⟩

theorem wp_stuck_wk {k : Ret Val → Th ω α} (h : ∀ r, (k r).run.Wp (wkEnv P job) Q (.broken, v.2)) :
    ((liftM (inThread (sysCall .stuck) : ThreadProg ω (Ret Val)) : Th ω (Ret Val)) >>= k).run.Wp (wkEnv P job) Q v := by
  refine wp_io_call ⟨.sys .ok, (.broken, v.2), .ok, .inl rfl, rfl, rfl⟩ ?_
  rintro _ _ ⟨r0, -, rfl, rfl⟩
  exact ⟨.sys r0, rfl, h r0⟩

/-- The user's function runs, and the pool does not change. -/
theorem runUser_wk {R : Int → Wk ω × Heap ω → Prop} (hR : ∀ r, R r v) (u : User) :
    (runUser u : ThreadProg ω Int).Wp (wkEnv P job) R v := by
  induction u with
  | ret r => exact hR r
  | emit m k ih =>
    rw [runUser]
    refine ⟨⟨.int 0, v, ⟨0, rfl⟩, rfl⟩, ?_⟩
    rintro _ _ ⟨⟨n, rfl⟩, rfl⟩
    exact ih n

theorem wp_callUser {e : Sys} {k : Int → Th ω α} (he : ∀ w : Wk ω, shaken e w = w) (h : ∀ r, (k r).run.Wp (wkEnv P job) Q v) :
    (callUser e >>= k).run.Wp (wkEnv P job) Q v := by
  refine wp_th_bind ?_
  obtain ⟨r0, h0⟩ := ioOk_answer (.sys e)
  refine ⟨?_, ?_⟩
  · cases r0 with
    | int r => cases h0
    | sys r => exact ⟨.sys r, _, r, h0, rfl, rfl⟩
  · rintro _ _ ⟨r0, -, rfl, rfl⟩
    rw [he]
    show Prog.Wp _ (Prog.bind _ _) _ _
    refine (Prog.wp_bind _ _ _).mpr ?_
    cases r0 with
    | val x =>
      cases x with
      | user u => exact runUser_wk h u
      | _ => exact h (-1)
    | _ => exact h (-1)

theorem wp_pop {k : Int × Option ω → Th ω α} (hv : v.1 = .idle)
    (hitem : ∀ x, (k (0, some x)).run.Wp (wkEnv P job) Q (.has x, v.2))
    (hend : (k (1, none)).run.Wp (wkEnv P job) Q (.drained, v.2))
    (hfail : (k (-1, none)).run.Wp (wkEnv P job) Q (.broken, v.2)) :
    (mrQueuePop >>= k).run.Wp (wkEnv P job) Q v := by
  refine wp_th_call ⟨_, _, hv, .inr (.inr ⟨rfl, rfl⟩)⟩ ?_
  rintro _ _ ⟨-, ⟨x, rfl, rfl⟩ | ⟨rfl, rfl⟩ | ⟨rfl, rfl⟩⟩
  · exact hitem x
  · exact hend
  · exact hfail

theorem wp_load_own {x : ω} {k : Option Node → Th ω α} (hx : v.1.Owns x)
    (h : (k (v.2 x)).run.Wp (wkEnv P job) Q v) : (load x >>= k).run.Wp (wkEnv P job) Q v := by
  refine wp_th_call ⟨_, _, rfl, hx, rfl⟩ ?_
  rintro _ _ ⟨rfl, -, rfl⟩
  exact h

theorem wp_note_called {x : ω} {e : Sys} {k : Unit → Th ω α} (hv : v.1 = .has x) (he : e = job v.2 x)
    (h : (k ()).run.Wp (wkEnv P job) Q (.using x, v.2)) : (note (.called x e) >>= k).run.Wp (wkEnv P job) Q v := by
  refine wp_th_call ⟨_, _, rfl, he, hv, rfl⟩ ?_
  rintro _ _ ⟨rfl, -, -, rfl⟩
  exact h

theorem wp_note_failed {x : ω} {k : Unit → Th ω α} (hv : v.1 = .using x)
    (h : (k ()).run.Wp (wkEnv P job) Q (.erred x, v.2)) : (note (.failed x) >>= k).run.Wp (wkEnv P job) Q v := by
  refine wp_th_call ⟨_, _, rfl, hv, rfl⟩ ?_
  rintro _ _ ⟨rfl, -, rfl⟩
  exact h

theorem wp_note_done {x : ω} {k : Unit → Th ω α} (hv : v.1 = .using x)
    (h : (k ()).run.Wp (wkEnv P job) Q (.idle, v.2)) : (note (.released x) >>= k).run.Wp (wkEnv P job) Q v := by
  refine wp_th_call ⟨_, _, rfl, .inl ⟨hv, rfl⟩⟩ ?_
  rintro _ _ ⟨rfl, ⟨-, rfl⟩ | ⟨hv', -⟩⟩
  · exact h
  · rw [hv] at hv'
    cases hv'

theorem wp_note_erred {x : ω} {k : Unit → Th ω α} (hv : v.1 = .erred x)
    (h : (k ()).run.Wp (wkEnv P job) Q (P.after, v.2)) : (note (.released x) >>= k).run.Wp (wkEnv P job) Q v := by
  refine wp_th_call ⟨_, _, rfl, .inr ⟨hv, rfl⟩⟩ ?_
  rintro _ _ ⟨rfl, ⟨hv', -⟩ | ⟨-, rfl⟩⟩
  · rw [hv] at hv'
    cases hv'
  · exact h

theorem wp_note_left {n : Int} {k : Unit → Th ω α} (hn : n = 1 → v.1 = .drained)
    (h : (k ()).run.Wp (wkEnv P job) Q v) : (note (.left n) >>= k).run.Wp (wkEnv P job) Q v := by
  refine wp_th_call ⟨_, _, rfl, hn, rfl⟩ ?_
  rintro _ _ ⟨rfl, -, rfl⟩
  exact h

end

end MrLib
