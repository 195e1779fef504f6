import MrLib.Process.Calm
import MrLib.Protocol.LineStream

/-!
# Rules for runs in which no call fails

The rules of `calmEnv` for a call and what follows it, for sequential code, and for the loops that create and join the
workers. `calledEmits` is what the user's functions emit in the calls that a thread has recorded.
-/

namespace MrLib

open Conc

variable {ω α β : Type} {user : Sys → User} {N : Event ω → Prop} {t : Tid} {v : View ω} {Q : Except Int α → View ω → Prop}

/-! ## Sequential code -/

/-- Sequential code of thread `t` when no call fails: only the controller reads. -/
def calmIo (user : Sys → User) (t : Tid) (stdin : Bytes) (c : Io) (r : IoRet) (stdin' : Bytes) : Prop :=
  match c with
  | .log _ _ => r = .int 0 ∧ stdin' = stdin
  | .writeN _ _ => False
  | .sys e => (t ≠ .controller → ∀ fd n, e ≠ .read fd n) ∧ ∃ r0, r = .sys r0 ∧ calmSys user stdin e r0 stdin'

theorem wp_calmIo {p : IoProg β} {k : β → Th ω α} (h : p.Wp (calmIo user t)
      (fun b st => (k b).run.Wp (calmEnv user N t) Q { v with stdin := st }) v.stdin) :
    ((liftM (inThread p : ThreadProg ω β) : Th ω β) >>= k).run.Wp (calmEnv user N t) Q v := by
  refine wp_inThread (K := fun st v' => v' = { v with stdin := st }) ?_ rfl (h.mono fun b st hb v' hv => hv ▸ hb)
  rintro st _ rfl c hex
  cases c with
  | log level format =>
    refine ⟨⟨.int 0, _, rfl, rfl⟩, ?_⟩
    rintro _ _ ⟨rfl, rfl⟩
    exact ⟨.int 0, st, rfl, ⟨rfl, rfl⟩, rfl⟩
  | writeN fd bs =>
    obtain ⟨r, st', h⟩ := hex
    exact h.elim
  | sys e =>
    obtain ⟨r, st', hread, r0, -, hs⟩ := hex
    refine ⟨⟨.sys r0, _, r0, rfl, .inr ⟨hread, st', hs, rfl⟩⟩, ?_⟩
    rintro _ _ ⟨r1, rfl, ⟨rfl, -⟩ | ⟨-, st1, hs1, rfl⟩⟩
    · rcases hs.1 with hp | ⟨-, hh⟩
      · exact absurd hp.may (by simp [Sys.mayReturn])
      · exact hh.elim
    · exact ⟨.sys r1, st1, rfl, ⟨hread, r1, rfl, hs1⟩, rfl⟩

/-- A read of the controller. -/
theorem serve_read {s s' bs : Bytes} {fd n : Nat} :
    serve s (.read fd n) (.val (.bytes bs)) = some s' ↔
      s = bs ++ s' ∧ bs.length ≤ n ∧ (bs = [] → s = [] ∨ n = 0) := by
  simp only [serve, List.isPrefixOf_iff_prefix]
  constructor
  · intro h
    split at h
    · rename_i hc
      obtain ⟨⟨s1, rfl⟩, h2, h3⟩ := hc
      rw [List.drop_left, Option.some.injEq] at h
      exact ⟨congrArg _ h, h2, h3⟩
    · cases h
  · rintro ⟨rfl, h2, h3⟩
    rw [if_pos ⟨List.prefix_append _ _, h2, h3⟩, List.drop_left]

/-- A call whose answer says nothing about the standard input. -/
theorem serve_other {s : Bytes} {e : Sys} {r : Ret Val} (he : ∀ fd n, e ≠ .read fd n)
    (hr : e.mayReturn (fun _ => .other) r = true) : serve s e r = some s := by
  unfold serve
  split
  · exact absurd rfl (he _ _)
  · rw [if_pos hr]

/-- **The reader of a stream.** What is right for any pipe that does not fail is right in such a run. -/
theorem wp_stream {p : IoProg β} {R : β → Bytes → Prop} {s : Bytes} (h : p.Wp StreamEnv R s) :
    p.Wp (calmIo user .controller) R s := by
  refine h.of_env ?_
  intro s c hex
  obtain ⟨r, s', hr⟩ := hex
  cases c with
  | log level format =>
    refine ⟨⟨.int 0, s, rfl, rfl⟩, ?_⟩
    rintro _ _ ⟨rfl, rfl⟩
    exact ⟨rfl, rfl⟩
  | writeN fd bs => cases r <;> exact hr.elim
  | sys e =>
    have give : ∀ r0 s', calmSys user s e r0 s' → ∃ r s', calmIo user .controller s (.sys e) r s' :=
      fun r0 s' h => ⟨.sys r0, s', fun ht => absurd rfl ht, r0, rfl, h⟩
    cases e with
    | uninit n =>
      refine ⟨give (.val (.bytes (List.replicate n 0))) s ⟨.inl ⟨by simp [Sys.mayReturn], by simp, by simp [Sys.isUser]⟩,
        serve_other (by simp) (by simp [Sys.mayReturn])⟩, ?_⟩
      rintro _ s1 ⟨-, r1, rfl, hp | ⟨-, hh⟩, hs⟩
      · obtain rfl := serve_same (by simp) hs
        have hm := hp.may
        rcases r1 with _ | _ | _ | x
        · cases hm
        · cases hm
        · cases hm
        · cases x with
          | bytes block => exact ⟨by simpa [Sys.mayReturn] using hm, rfl⟩
          | _ => cases hm
      · exact hh.elim
    | read fd n =>
      refine ⟨give (.val (.bytes (s.take n))) (s.drop n) ⟨.inl ⟨by simp [Sys.mayReturn], by simp, by simp [Sys.isUser]⟩,
        serve_read.mpr ⟨(List.take_append_drop n s).symm, by simp, fun h => ?_⟩⟩, ?_⟩
      · rw [List.take_eq_nil_iff] at h
        exact h.symm
      · rintro _ s1 ⟨-, r1, rfl, hp | ⟨-, hh⟩, hs⟩
        · have hm := hp.may
          rcases r1 with _ | _ | _ | x
          · cases hm
          · exact absurd rfl hp.ok
          · cases hm
          · cases x with
            | bytes bs => exact serve_read.mp hs
            | _ => cases hm
        · exact hh.elim
    | malloc n =>
      constructor
      · by_cases hn : n ≤ ptrdiffMax
        · exact give (.val (.bytes (List.replicate n 0))) s
            ⟨.inl ⟨by simp [Sys.mayReturn, hn], by simp, by simp [Sys.isUser]⟩,
              serve_other (by simp) (by simp [Sys.mayReturn, hn])⟩
        · exact give .fail s ⟨.inr ⟨rfl, Nat.lt_of_not_le hn⟩, serve_other (by simp) rfl⟩
      · rintro _ s1 ⟨-, r1, rfl, hp | ⟨rfl, hh⟩, hs⟩
        · obtain rfl := serve_same (by simp) hs
          have hm := hp.may
          rcases r1 with _ | _ | _ | x
          · cases hm
          · exact absurd rfl hp.ok
          · cases hm
          · cases x with
            | bytes block =>
              simp only [Sys.mayReturn, decide_eq_true_eq] at hm
              exact ⟨hm.2, hm.1, rfl⟩
            | _ => cases hm
        · exact ⟨hh, serve_same (by simp) hs⟩
    | realloc n =>
      constructor
      · by_cases hn : n ≤ ptrdiffMax
        · exact give .ok s ⟨.inl ⟨by simp [Sys.mayReturn, hn], by simp, by simp [Sys.isUser]⟩,
            serve_other (by simp) (by simp [Sys.mayReturn, hn])⟩
        · exact give .fail s ⟨.inr ⟨rfl, Nat.lt_of_not_le hn⟩, serve_other (by simp) rfl⟩
      · rintro _ s1 ⟨-, r1, rfl, hp | ⟨rfl, hh⟩, hs⟩
        · obtain rfl := serve_same (by simp) hs
          have hm := hp.may
          rcases r1 with _ | _ | _ | x
          · simp only [Sys.mayReturn, decide_eq_true_eq] at hm
            exact ⟨hm, rfl⟩
          · exact absurd rfl hp.ok
          · cases hm
          · cases hm
        · exact ⟨hh, serve_same (by simp) hs⟩
    | _ => cases r <;> exact hr.elim

/-! ## Calls and what follows them -/

theorem wp_log_calm {level : Level} {format : String} {k : Int → Th ω α} (h : (k 0).run.Wp (calmEnv user N t) Q v) :
    ((liftM (inThread (mrLog level format) : ThreadProg ω Int) : Th ω Int) >>= k).run.Wp (calmEnv user N t) Q v := by
  refine wp_calmIo ⟨⟨.int 0, _, rfl, rfl⟩, ?_⟩
  rintro _ _ ⟨rfl, rfl⟩
  exact h

theorem wp_logError_calm {format : String} {k : Unit → Th ω α} (h : (k ()).run.Wp (calmEnv user N t) Q v) :
    ((liftM (inThread (mrLogError format) : ThreadProg ω Unit) : Th ω Unit) >>= k).run.Wp (calmEnv user N t) Q v := by
  refine wp_calmIo ⟨⟨.int 0, _, rfl, rfl⟩, ?_⟩
  rintro _ _ ⟨rfl, rfl⟩
  exact h

/-- Something undefined. -/
theorem wp_stuck_calm {k : Ret Val → Th ω α} (h : ∀ r, (k r).run.Wp (calmEnv user N t) Q { v with astray := true }) :
    ((liftM (inThread (sysCall .stuck) : ThreadProg ω (Ret Val)) : Th ω (Ret Val)) >>= k).run.Wp (calmEnv user N t) Q
      v := by
  refine wp_io_call ⟨.sys .ok, _, .ok, rfl, .inl ⟨rfl, rfl⟩⟩ ?_
  rintro _ _ ⟨r0, rfl, ⟨-, rfl⟩ | ⟨-, st, ⟨hp | ⟨-, hh⟩, -⟩, -⟩⟩
  · exact ⟨.sys r0, rfl, h r0⟩
  · exact absurd hp.may (by simp [Sys.mayReturn])
  · exact hh.elim

theorem wp_note_calm {e : Event ω} {k : Unit → Th ω α} (he : N e)
    (h : (k ()).run.Wp (calmEnv user N t) Q { v with events := v.events ++ [e] }) :
    (note e >>= k).run.Wp (calmEnv user N t) Q v := by
  refine wp_th_call ⟨_, _, rfl, he, rfl⟩ ?_
  rintro _ _ ⟨rfl, -, rfl⟩
  exact h

theorem wp_load_calm {x : ω} {k : Option Node → Th ω α} (hx : N (.read x))
    (h : ∀ n, (k n).run.Wp (calmEnv user N t) Q { v with events := v.events ++ [.read x] }) :
    (load x >>= k).run.Wp (calmEnv user N t) Q v := by
  refine wp_th_call ⟨_, _, ⟨none, rfl⟩, hx, rfl⟩ ?_
  rintro _ _ ⟨⟨n, rfl⟩, -, rfl⟩
  exact h n

theorem wp_share_calm {heap : ω → Option Node} {k : Unit → Th ω α} (h : (k ()).run.Wp (calmEnv user N t) Q v) :
    (share heap >>= k).run.Wp (calmEnv user N t) Q v := by
  refine wp_th_call ⟨_, _, rfl, rfl⟩ ?_
  rintro _ _ ⟨rfl, rfl⟩
  exact h

theorem wp_push_calm {x : ω} {k : Int → Th ω α} (h : (k 0).run.Wp (calmEnv user N t) Q v) :
    (mrQueuePush x >>= k).run.Wp (calmEnv user N t) Q v := by
  refine wp_th_call ⟨_, _, rfl, rfl⟩ ?_
  rintro _ _ ⟨rfl, rfl⟩
  exact h

theorem wp_close_calm {k : Int → Th ω α} (h : (k 0).run.Wp (calmEnv user N t) Q v) :
    (mrQueueClose >>= k).run.Wp (calmEnv user N t) Q v := by
  refine wp_th_call ⟨_, _, rfl, rfl⟩ ?_
  rintro _ _ ⟨rfl, rfl⟩
  exact h

theorem wp_create_calm {i : Nat} {k : Int → Th ω α} (h : (k 0).run.Wp (calmEnv user N t) Q v) :
    (thrdCreate i >>= k).run.Wp (calmEnv user N t) Q v := by
  refine wp_th_call ⟨_, _, rfl, rfl⟩ ?_
  rintro _ _ ⟨rfl, rfl⟩
  exact h

theorem wp_join_calm {i : Nat} {k : Option Int → Th ω α} (h : ∀ c, (k (some c)).run.Wp (calmEnv user N t) Q v) :
    (thrdJoin i >>= k).run.Wp (calmEnv user N t) Q v := by
  refine wp_th_call ⟨_, _, ⟨0, rfl⟩, rfl⟩ ?_
  rintro _ _ ⟨⟨c, rfl⟩, rfl⟩
  exact h c

theorem wp_pop_calm {k : Int × Option ω → Th ω α} (hitem : ∀ x, (k (0, some x)).run.Wp (calmEnv user N t) Q v)
    (hjunk : (k (0, none)).run.Wp (calmEnv user N t) Q v) (hend : (k (1, none)).run.Wp (calmEnv user N t) Q v) :
    (mrQueuePop >>= k).run.Wp (calmEnv user N t) Q v := by
  refine wp_th_call ⟨_, _, ⟨1, none, rfl, .inr ⟨rfl, rfl⟩⟩, rfl⟩ ?_
  rintro _ _ ⟨⟨n, x, rfl, rfl | ⟨rfl, rfl⟩⟩, rfl⟩
  · cases x with
    | some x => exact hitem x
    | none => exact hjunk
  · exact hend

/-- **A user's function** emits what it emits, and returns what it returns. -/
theorem runUser_calm {i : Nat} {R : Int → View ω → Prop} (u : User) {v : View ω}
    (h : R u.result { v with emits := v.emits ++ u.emits }) :
    (runUser u : ThreadProg ω Int).Wp (calmEnv user N (.worker i)) R v := by
  induction u generalizing v with
  | ret r =>
    have h : R r { v with emits := v.emits ++ [] } := h
    rw [List.append_nil] at h
    exact h
  | emit m k ih =>
    rw [runUser]
    refine ⟨⟨.int 0, _, by simp, rfl, rfl⟩, ?_⟩
    rintro _ _ ⟨-, rfl, rfl⟩
    refine ih 0 ?_
    have happ : v.emits ++ [m] ++ (k 0).emits = v.emits ++ (m :: (k 0).emits) := by simp
    show R _ { v with emits := v.emits ++ [m] ++ (k 0).emits }
    rw [happ]
    exact h

theorem wp_callUser_calm {i : Nat} {e : Sys} {k : Int → Th ω α} (he : e.isUser = true)
    (h : (k (user e).result).run.Wp (calmEnv user N (.worker i)) Q { v with emits := v.emits ++ (user e).emits }) :
    (callUser e >>= k).run.Wp (calmEnv user N (.worker i)) Q v := by
  have hread : ∀ fd n, e ≠ .read fd n := by
    rintro fd n rfl
    cases he
  have hmay : e.mayReturn (fun _ => .other) (.val (.user (user e))) = true := by cases e <;> first | rfl | cases he
  refine wp_th_bind ⟨⟨_, _, _, rfl, .inr ⟨fun _ => hread, v.stdin, ⟨.inl ⟨hmay, by simp, fun _ => rfl⟩,
    serve_other hread hmay⟩, rfl⟩⟩, ?_⟩
  rintro _ _ ⟨r0, rfl, ⟨rfl, -⟩ | ⟨-, st, ⟨hp | ⟨-, hh⟩, hs⟩, rfl⟩⟩
  · cases he
  · obtain rfl := serve_same hread hs
    rw [hp.user he]
    show Prog.Wp _ (Prog.bind _ _) _ _
    refine (Prog.wp_bind _ _ _).mpr (runUser_calm _ ?_)
    exact h
  · cases e <;> first | exact hh.elim | cases he

/-! ## Setting up -/

/-- The allocations of a process are not too large for an object. -/
structure PoolArgs.Fits (args : PoolArgs) (size : Nat) : Prop where
  threads : args.threads * sizeofThreadArg ≤ ptrdiffMax
  queue : args.queueSize * size ≤ ptrdiffMax

/-- What is allocated, or initialised. -/
theorem allocates_calm {e : Sys} {R : Bool → Bytes → Prop} {s : Bytes}
    (he : (∃ n, e = .malloc n ∧ n ≤ ptrdiffMax) ∨ e = .mtxInit ∨ e = .cndInit) (h : R true s) :
    (allocates e).Wp (calmIo user t) R s := by
  have hread : ∀ fd n, e ≠ .read fd n := by
    rintro fd n rfl
    simp at he
  have hhuge : ¬ e.huge := by
    rcases he with ⟨n, rfl, hn⟩ | rfl | rfl
    · exact fun hh => absurd hn (Nat.not_le.mpr hh)
    · exact id
    · exact id
  have hans : ∃ r, Proper user e r := by
    rcases he with ⟨n, rfl, hn⟩ | rfl | rfl
    · exact ⟨.val (.bytes (List.replicate n 0)), by simp [Sys.mayReturn, hn], by simp, by simp [Sys.isUser]⟩
    · exact ⟨.ok, rfl, by simp, by simp [Sys.isUser]⟩
    · exact ⟨.ok, rfl, by simp, by simp [Sys.isUser]⟩
  obtain ⟨r, hr⟩ := hans
  refine ⟨⟨_, s, fun _ => hread, r, rfl, .inl hr, serve_other hread hr.may⟩, ?_⟩
  rintro _ s' ⟨-, r1, rfl, hp | ⟨-, hh⟩, hs⟩
  · obtain rfl := serve_same hread hs
    cases r1 with
    | fail => exact absurd rfl hp.ok
    | _ => exact h
  · exact absurd hh hhuge

/-- The same in a thread. -/
theorem wp_allocates_calm {e : Sys} {k : Bool → Th ω α}
    (he : (∃ n, e = .malloc n ∧ n ≤ ptrdiffMax) ∨ e = .mtxInit ∨ e = .cndInit)
    (h : (k true).run.Wp (calmEnv user N t) Q v) :
    ((liftM (inThread (allocates e) : ThreadProg ω Bool) : Th ω Bool) >>= k).run.Wp (calmEnv user N t) Q v :=
  wp_calmIo (allocates_calm he h)

theorem mul_mod_fits {n size : Nat} (h : n * size ≤ ptrdiffMax) : n * size % sizeT ≤ ptrdiffMax :=
  (Nat.mod_le _ _).trans h

/-- `mr_queue_init` returns 0. -/
theorem mrQueueInitCalls_calm {capacity size : Nat} (h : capacity * size ≤ ptrdiffMax) {s : Bytes} {R : Int → Bytes → Prop}
    (hR : R 0 s) : (mrQueueInitCalls capacity size).Wp (calmIo user t) R s := by
  refine (Prog.wp_bind _ _ _).mpr (allocates_calm (.inl ⟨_, rfl, mul_mod_fits h⟩) ?_)
  refine (Prog.wp_bind _ _ _).mpr (allocates_calm (.inr (.inl rfl)) ?_)
  refine (Prog.wp_bind _ _ _).mpr (allocates_calm (.inr (.inr rfl)) ?_)
  exact (Prog.wp_bind _ _ _).mpr (allocates_calm (.inr (.inr rfl)) hR)

/-- What is allocated, when it is not too large. -/
theorem malloc_calm {n : Nat} {R : Option Bytes → Bytes → Prop} {s : Bytes} (hn : n ≤ ptrdiffMax)
    (h : ∀ block : Bytes, block.length = n → R (some block) s) : (malloc n).Wp (calmIo user t) R s := by
  have hread : ∀ fd m, Sys.malloc n ≠ .read fd m := nofun
  have hzero : Proper user (.malloc n) (.val (.bytes (List.replicate n 0))) :=
    ⟨by simp [Sys.mayReturn, hn], by simp, by simp [Sys.isUser]⟩
  refine ⟨⟨_, s, fun _ => hread, _, rfl, .inl hzero, serve_other hread hzero.may⟩, ?_⟩
  rintro _ s' ⟨-, r1, rfl, hp | ⟨-, hh⟩, hs⟩
  · obtain rfl := serve_same hread hs
    have hm := hp.may
    rcases r1 with _ | _ | _ | x
    · cases hm
    · exact absurd rfl hp.ok
    · cases hm
    · cases x with
      | bytes block =>
        simp only [Sys.mayReturn, decide_eq_true_eq] at hm
        exact h block hm.1
      | _ => cases hm
  · exact absurd hh (Nat.not_lt.mpr hn)

/-- There is an entry for every thread. -/
theorem PoolArgs.Fits.slots {args : PoolArgs} {size : Nat} {threads tArgs : Bytes} (h : args.Fits size)
    (hb : args.Blocks threads tArgs) : threadSlots threads tArgs = args.threads := by
  refine hb.slots ?_
  have h1 := h.threads
  simp only [ptrdiffMax, sizeT] at *
  omega

/-- The memory for the threads is allocated. -/
theorem wp_blocks_calm {args : PoolArgs} {size : Nat} {k : Option Bytes → Option Bytes → Th ω α} (hfit : args.Fits size)
    (h : ∀ threads tArgs, args.Blocks threads tArgs → (k (some threads) (some tArgs)).run.Wp (calmEnv user N t) Q v) :
    (do
      let threads ← mallocArray args.threads sizeofThrd
      let tArgs ← mallocArray args.threads sizeofThreadArg
      k threads tArgs : Th ω α).run.Wp (calmEnv user N t) Q v := by
  have hthreads : args.threads * sizeofThrd ≤ ptrdiffMax := by
    have := hfit.threads
    simp only [sizeofThrd, sizeofThreadArg, ptrdiffMax] at *
    omega
  refine wp_calmIo (malloc_calm (mul_mod_fits hthreads) fun threads h1 => ?_)
  refine wp_calmIo (malloc_calm (mul_mod_fits hfit.threads) fun tArgs h2 => ?_)
  exact h threads tArgs ⟨h1, h2⟩

/-- Every worker is created. -/
theorem createWorkers_calm {slots : Nat} {failed : String} {cleanup : Th ω Unit} : ∀ (todo i : Nat) (v : View ω),
    i + todo ≤ slots →
      (createWorkers slots failed cleanup i todo).run.Wp (calmEnv user N t) (fun x v' => x = .ok () ∧ v' = v) v
  | 0, _, _, _ => ⟨rfl, rfl⟩
  | todo + 1, i, v, h => by
    rw [createWorkers]
    refine wp_ite (fun hi => absurd hi (by omega)) fun _ => ?_
    refine wp_create_calm (wp_ite (fun hne => absurd rfl hne) fun _ => ?_)
    exact createWorkers_calm todo (i + 1) v (by omega)

/-- Every worker is joined. -/
theorem joinWorkers_calm {failed exited : String} : ∀ (todo i : Nat) (v : View ω),
    (joinWorkers failed exited i todo).run.Wp (calmEnv user N t) (fun x v' => x = .ok () ∧ v' = v) v
  | 0, _, _ => ⟨rfl, rfl⟩
  | todo + 1, i, v => by
    rw [joinWorkers]
    refine wp_join_calm fun c => ?_
    show Prog.Wp _ (ExceptT.run (if c ≠ exitSuccess then _ else _)) _ _
    split
    · exact wp_log_calm (joinWorkers_calm todo (i + 1) v)
    · exact joinWorkers_calm todo (i + 1) v

end MrLib
