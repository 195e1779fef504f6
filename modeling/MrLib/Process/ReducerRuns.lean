import MrLib.Process.Ended
import MrLib.Process.ReducerPool

/-!
# Runs of the reducer process

`no_lost_token`: what the reducer process has done when it returns `EXIT_SUCCESS`, if no pop fails after it has taken a
node, and the workers do not all end with nodes left in the queue. Neither makes the process return a failure
(`token_lost`): the code of a worker is only logged. A failing allocation or a failing push does.

`single_ownership`: nobody uses a node twice, or reads it after it was released; and when `reducer_process_main` has
returned and the workers have all found the queue closed and empty, every node was released.
-/

namespace MrLib

open Conc Conc.WorkPool

/-! ## Lost tokens -/

/-- What the reducer process calls the user's reducer for when it has received `pairs`. -/
def reducerCalls (pairs : List Pair) : List Sys :=
  (pairs.map Prod.fst).dedup.map fun token => .reducer token (valuesOf token pairs)

/-- Nothing happens in this step by which a token is lost. -/
def KeepsTokens (args : PoolArgs) (s : Hosted Ptr ReducerPhase) (a : Act Tid Val) : Prop :=
  ¬ PopSlips s.threads a ∧ ¬ Abandoned args.threads s.threads

/-- The end of such a run: the threads have ended, and the user's reducer was called once for every token, with all the values
received with it. -/
theorem reducer_served {args : PoolArgs} {stdin : Bytes} {s : Hosted Ptr ReducerPhase}
    (h : Reach (reducerSystem args stdin) (KeepsTokens args) s) (hd : s.threads.loc .controller = .done exitSuccess) :
    Over s.threads ∧
      (callsOf s.threads.mem.user.events).Perm (reducerCalls (receivedOf s.threads.mem.user.events)) := by
  have hfault : ∀ s a f, KeepsTokens args s a → Blame s.threads a f → f ≠ .lost := by
    intro s a f hc hb hf
    exact hc.1 (hf ▸ hb).popSlips
  obtain ⟨fs, g, hs, hfs, hp⟩ := pooled_of_reach (reducerContract args) (by decide) hfault h
  have hat := hp.ctl
  rw [hd] at hat
  obtain ⟨hret, hrefused, tb, hG⟩ := hat.2.success rfl
  have hlost : g.lost = [] := by
    by_contra hne
    rcases hs.causes.lost hne with h0 | h0
    · exact h0 rfl
    · exact hfs _ h0 rfl
  have hcount := count_of_done (K := reducerContract args) (fun v hv => (hv.success rfl).1) (fun s a hc => hc.2) h hd
  have hserved := hp.served hret hrefused hlost hcount
  have hheap : s.threads.mem.user.heap = fun p => tb.heap[p]? := hG.heap
  have hborn : cameOf s.threads.mem.user.events = tb.nodes := hp.good.synced.born.symm.trans hG.born
  rw [hheap, hborn] at hserved
  exact ⟨hp.over hret hd, hserved.trans hG.inv.calls⟩

/-- **No token is lost**: the user's reducer was called once for every token, with all the values received with it. -/
theorem no_lost_token (args : PoolArgs) (stdin : Bytes) {s : Hosted Ptr ReducerPhase}
    (h : Reach (reducerSystem args stdin) (KeepsTokens args) s) (hd : s.threads.loc .controller = .done exitSuccess) :
    (callsOf s.threads.mem.user.events).Perm
      (((receivedOf s.threads.mem.user.events).map Prod.fst).dedup.map fun token =>
        .reducer token (valuesOf token (receivedOf s.threads.mem.user.events))) := (reducer_served h hd).2

/-- **Tokens are abandoned only when a worker's pop or log has failed**: a worker for which the user's reducer fails goes on. -/
theorem never_abandoned {args : PoolArgs} {stdin : Bytes} {s : Hosted Ptr ReducerPhase}
    (h : Reach (reducerSystem args stdin) (fun s a => ¬ Stumbles s.threads a) s) : ¬ Abandoned args.threads s.threads :=
  fun ha => Bool.false_ne_true (abandoned_failed (reducerContract args) h ha).1

/-- So a run keeps its tokens as long as no pop and no log of a worker fails. -/
theorem keepsTokens_of_steady {args : PoolArgs} {stdin : Bytes} {s : Hosted Ptr ReducerPhase}
    (h : Reach (reducerSystem args stdin) (fun s a => ¬ Stumbles s.threads a) s) :
    Reach (reducerSystem args stdin) (KeepsTokens args) s := by
  refine (h.assume (J := fun s => ¬ Abandoned args.threads s.threads) fun s => never_abandoned).mono ?_
  rintro s a ⟨hstumble, habandoned⟩
  exact ⟨fun hpop => hstumble hpop.stumbles, habandoned⟩

/-! ## Single ownership -/

/-- A push does not fail after it has added its node to the queue. -/
def PushesWhole (s : Hosted Ptr ReducerPhase) (a : Act Tid Val) : Prop :=
  ¬ (a = .ret .controller .fail ∧
    ∃ f, s.threads.loc .controller = .queue .pushSignal f ∨ s.threads.loc .controller = .queue .pushUnlock f)

/-- No node comes twice. -/
theorem nodup_came {args : PoolArgs} {s : PoolState Ptr ReducerPhase} {g : State Ptr}
    (h : Pooled (reducerContract args) s g) : g.ctl.born.Nodup := by
  obtain ⟨x, v, hend, hborn⟩ := h.born
  have hv : v.1.born.Nodup := by
    cases x with
    | error c => exact hend.nodup
    | ok ph =>
      cases ph with
      | collect tb =>
        rw [hend.ctl]
        exact List.nodup_nil
      | work => exact hend.elim
  exact hv.sublist hborn.sublist

/-- **Single ownership of the nodes.** -/
theorem single_ownership (args : PoolArgs) (stdin : Bytes) {s : Hosted Ptr ReducerPhase}
    (h : Reach (reducerSystem args stdin) PushesWhole s) :
    (calledOf s.threads.mem.user.events).Nodup ∧ (releasedOf s.threads.mem.user.events).Nodup ∧
      Fresh s.threads.mem.user.events ∧
      ∀ c, s.threads.loc .controller = .done c →
        (∀ i, s.threads.loc (.worker i) ≠ .absent → (.worker i, .left 1) ∈ s.threads.mem.user.events) →
        ∀ p, s.threads.mem.user.heap p ≠ none → p ∈ releasedOf s.threads.mem.user.events := by
  have hfault : ∀ s a f, PushesWhole s a → Blame s.threads a f → f ≠ .burnt := by
    intro s a f hc hb hf
    subst hf
    exact hc hb
  obtain ⟨fs, g, hs, hfs, hp⟩ := pooled_of_reach (reducerContract args) (by decide) hfault h
  have hburnt : g.burnt = [] := by
    by_contra hne
    rcases hs.causes.burnt hne with h0 | h0
    · exact h0 rfl
    · exact hfs _ h0 rfl
  have hnodup := nodup_came hp
  obtain ⟨hinv, hledger, hfaults, hsync⟩ := hp.good
  obtain ⟨hcalled, hreleased, -, -⟩ := hledger.unique hinv hburnt hnodup
  refine ⟨hsync.called ▸ hcalled, hsync.released ▸ hreleased, hsync.fresh hburnt hnodup, ?_⟩
  intro c hd hleft p hnode
  have hat := hp.ctl
  rw [hd] at hat
  have hexit : ReducerExit (args.spec false) c (g.ctl, s.threads.mem.user.seen) := hat.2
  have hall : ∀ i < g.ctl.created, g.wk i = .drained := by
    intro i hi
    refine hsync.left i (hleft i fun habs => ?_)
    have hwi := hp.wk i
    rw [habs] at hwi
    have := (hinv.absent i).mp hwi
    omega
  have hfreed := hledger.freed hinv hfaults args.threads_pos hall hburnt hexit.held
  rw [← hsync.released]
  exact hfreed.mem_iff.mpr (hexit.nodes p hnode)

/-! ## Concrete runs -/

theorem nulFree_b : (0 : UInt8) ∉ ([98] : Bytes) := by decide

theorem fits_b : ([98] : Bytes).length < ptrdiffMax := by decide

/-- The token `b`. -/
def tokenB : CString := ⟨[98], nulFree_b, fits_b⟩

/-- Pairs with the tokens `a` and `b`, without values. -/
def pairsAB : Bytes := Msg.wire ⟨.a, .empty⟩ ++ Msg.wire ⟨tokenB, .empty⟩

/-- Three pairs with two tokens. -/
def pairsABA : List Msg := [⟨.a, .ofBytes [120]⟩, ⟨tokenB, .empty⟩, ⟨.a, .ofBytes [121]⟩]

/-- A user's reducer that does nothing. -/
def doesNothing (_ : Sys) : User := .ret 0

/-- The controller has ended with the code `c`, and the reducer was called `n` times for `m` tokens. -/
def endsAfter (args : PoolArgs) (c : Int) (n m : Nat) (s : Hosted Ptr ReducerPhase) : Prop :=
  ((runtime (reducerCode args).client).call (s.threads.loc .controller)).code? = some c ∧
    (callsOf s.threads.mem.user.events).length = n ∧
    ((receivedOf s.threads.mem.user.events).map Prod.fst).dedup.length = m

instance (args : PoolArgs) (c : Int) (n m : Nat) : DecidablePred (endsAfter args c n m) :=
  fun _ => inferInstanceAs (Decidable (_ ∧ _ ∧ _))

/-- Worker 0 has ended with a failure, and worker 1 without one. -/
def oneReducerFailed (s : Hosted Ptr ReducerPhase) : Prop :=
  ((runtime (reducerCode twoThreads).client).call (s.threads.loc (.worker 0))).code? = some exitFailure ∧
    ((runtime (reducerCode twoThreads).client).call (s.threads.loc (.worker 1))).code? = some exitSuccess

instance : DecidablePred oneReducerFailed := fun _ => inferInstanceAs (Decidable (_ ∧ _))

/-- Worker 0 cannot log that it has started, and ends; worker 1 goes on with both tokens. -/
theorem no_lost_token_twoWorkers : ∃ s,
    Reach (reducerSystem twoThreads (pairsABA.flatMap Msg.wire)) (KeepsTokens twoThreads) s ∧
      s.threads.loc (.worker 0) = .done exitFailure ∧ s.threads.loc (.worker 1) = .done exitSuccess ∧
      (callsOf s.threads.mem.user.events).length = 2 ∧
      (callsOf s.threads.mem.user.events).Perm
        (((receivedOf s.threads.mem.user.events).map Prod.fst).dedup.map fun token =>
          .reducer token (valuesOf token (receivedOf s.threads.mem.user.events))) := by
  obtain ⟨s, hr, ⟨hc, hn, -⟩, h0, h1⟩ := reach_of_playP (T := reducerSystem twoThreads (pairsABA.flatMap Msg.wire))
    (P := (reducerCode twoThreads).keeps 2) ((reducerCode twoThreads).turn doesNothing)
    (fun s => endsAfter twoThreads 0 2 2 s ∧ oneReducerFailed s)
    (turns .controller 46 ++ [.fail (.worker 0)] ++ turns (.worker 1) 8 ++ [.wake (.worker 1) .controller] ++
      turns (.worker 1) 4 ++ turns .controller 1 ++ [.wake .controller (.worker 1)] ++ turns .controller 12 ++
      turns (.worker 1) 13 ++ turns .controller 8) (by decide +kernel)
  have hk := hr.mono fun _ _ h => (ProcessCode.not_lost_of_keeps h).2
  exact ⟨s, hk, loc_of_done (Call.code?_eq.mp h0), loc_of_done (Call.code?_eq.mp h1), hn,
    no_lost_token twoThreads _ hk (loc_of_done (Call.code?_eq.mp hc))⟩

/-- **A token is lost**: the worker cannot log that it has started, and ends. -/
theorem token_lost : ∃ s, Reach (reducerSystem oneWorker (Msg.wire ⟨.a, .empty⟩)) (fun _ _ => True) s ∧
    s.threads.loc .controller = .done exitSuccess ∧
      ¬ (callsOf s.threads.mem.user.events).Perm
        (((receivedOf s.threads.mem.user.events).map Prod.fst).dedup.map fun token =>
          .reducer token (valuesOf token (receivedOf s.threads.mem.user.events))) := by
  obtain ⟨s, hr, hc, hn, hm⟩ := reach_of_playP (T := reducerSystem oneWorker (Msg.wire ⟨.a, .empty⟩))
    (P := fun _ _ => true) ((reducerCode oneWorker).turn doesNothing) (endsAfter oneWorker 0 0 1)
    (turns .controller 25 ++ [.fail (.worker 0)] ++ turns .controller 21) (by decide +kernel)
  refine ⟨s, hr.mono fun _ _ _ => trivial, loc_of_done (Call.code?_eq.mp hc), fun hp => ?_⟩
  have := hp.length_eq
  rw [List.length_map, hn, hm] at this
  cases this

/-- Whether a push fails after it has added its node. -/
def pushesWhole (s : Hosted Ptr ReducerPhase) (a : Act Tid Val) : Bool :=
  match a, s.threads.loc .controller with
  | .ret .controller .fail, .queue .pushSignal _ | .ret .controller .fail, .queue .pushUnlock _ => false
  | _, _ => true

theorem pushesWhole_of {s : Hosted Ptr ReducerPhase} {a : Act Tid Val} (h : pushesWhole s a = true) :
    PushesWhole s a := by
  rintro ⟨rfl, f, hl | hl⟩
  · simp [pushesWhole, hl] at h
  · simp [pushesWhole, hl] at h

/-- The loop of worker `i` has ended as `mr_queue_pop` returned 1. -/
def hasLeft {ω : Type} (i : Nat) (es : List (Tid × Event ω)) : Bool :=
  es.any fun e =>
    match e with
    | (.worker j, .left r) => j == i && r == 1
    | _ => false

theorem hasLeft_mem {ω : Type} {i : Nat} {es : List (Tid × Event ω)} (h : hasLeft i es = true) :
    (.worker i, .left 1) ∈ es := by
  obtain ⟨⟨t, e⟩, hm, he⟩ := List.any_eq_true.mp h
  cases t with
  | controller => cases he
  | worker j =>
    cases e with
    | left r =>
      simp only [Bool.and_eq_true, beq_iff_eq] at he
      obtain ⟨rfl, rfl⟩ := he
      exact hm
    | _ => cases he

/-- A worker that was not created is absent. -/
theorem absent_of_le {args : PoolArgs} {stdin : Bytes} {Cond : Hosted Ptr ReducerPhase → Act Tid Val → Prop}
    {s : Hosted Ptr ReducerPhase} (h : Reach (reducerSystem args stdin) Cond s) {i : Nat} (hi : args.threads ≤ i) :
    s.threads.loc (.worker i) = .absent := by
  obtain ⟨fs, g, -, -, hp⟩ := pooled_of_reach (reducerContract args) (F := fun _ => True) trivial
    (fun _ _ _ _ _ => trivial) h
  exact hp.absent i (hp.good.inv.created_le.trans hi)

/-- The process has ended with a failure, after one call for its two nodes; its worker has found the queue closed. -/
def endsReleased (s : Hosted Ptr ReducerPhase) : Prop :=
  endsAfter oneWorker 1 1 2 s ∧ hasLeft 0 s.threads.mem.user.events = true ∧
    ∀ p < 2, (s.threads.mem.user.heap p).isSome = true

instance : DecidablePred endsReleased := fun _ => inferInstanceAs (Decidable (_ ∧ _ ∧ _))

/-- The push of the second node fails. -/
theorem single_ownership_pushFails : ∃ s, Reach (reducerSystem oneWorker pairsAB) PushesWhole s ∧
    s.threads.loc .controller = .done exitFailure ∧ (calledOf s.threads.mem.user.events).Nodup ∧
    ∀ p < 2, p ∈ releasedOf s.threads.mem.user.events := by
  obtain ⟨s, hr, ⟨hc, -, -⟩, hl, hsome⟩ := reach_of_playP (T := reducerSystem oneWorker pairsAB) (P := pushesWhole)
    ((reducerCode oneWorker).turn doesNothing) endsReleased
    (turns .controller 36 ++ [.fail .controller] ++ turns .controller 10 ++ turns (.worker 0) 20 ++ turns .controller 1)
    (by decide +kernel)
  have hk := hr.mono fun _ _ => pushesWhole_of
  have hd : s.threads.loc .controller = .done exitFailure := loc_of_done (Call.code?_eq.mp hc)
  obtain ⟨hcalled, -, -, hall⟩ := single_ownership oneWorker _ hk
  refine ⟨s, hk, hd, hcalled, fun p hp => hall _ hd (fun i hi => ?_) p (Option.isSome_iff_ne_none.mp (hsome p hp))⟩
  by_cases h0 : i = 0
  · subst h0
    exact hasLeft_mem hl
  · exact absurd (absent_of_le hk (Nat.one_le_iff_ne_zero.mpr h0)) hi

end MrLib
