import MrLib.Process.Output
import MrLib.Process.ReducerRuns

/-!
# What the reducer process puts out

`reducer_output`: when the reducer process has ended, in a run on the stream of some pairs in which no call fails, it has
returned `EXIT_SUCCESS`; the user's reducer was called once for every token, with the values that came with it in the order
of their arrival, whatever it returned; and the standard output holds the results it has emitted, each once and whole.
-/

namespace MrLib

open Conc Conc.WorkPool

/-- The pairs received by an event. -/
def Event.received {ω : Type} : Event ω → List Pair
  | .pair token value => [(token, value)]
  | _ => []

theorem receivedOf_eq {ω : Type} (es : List (Tid × Event ω)) : receivedOf es = es.flatMap fun x => x.2.received := by
  induction es with
  | nil => rfl
  | cons x es ih =>
    rw [List.flatMap_cons, ← ih]
    obtain ⟨t, e⟩ := x
    cases e <;> rfl

/-- A token as it was received. -/
theorem cstr_token (t : CString) : cstr (t.bytes ++ [0]) = t.bytes := by
  have hpos : ∀ c ∈ t.bytes, decide (c ≠ 0) = true := fun c hc => by
    simp only [ne_eq, decide_eq_true_eq]
    rintro rfl
    exact t.nulFree hc
  simp only [cstr]
  rw [List.takeWhile_append_of_pos hpos]
  simp

/-! ## The threads -/

section

variable {args : PoolArgs} {user : Sys → User} {msgs : List Msg} {α : Type}

/-- Everything is allowed. -/
abbrev anyEvent (_ : Event Ptr) : Prop := True

/-- The controller has received `pairs`, and called nothing. -/
structure Heard (user : Sys → User) (pairs : List Pair) (v : View Ptr) : Prop where
  silent : emittedBy user v.events = []
  received : v.events.flatMap Event.received = pairs

theorem Heard.note {pairs : List Pair} {v : View Ptr} (h : Heard user pairs v) {e : Event Ptr} (he : e.emits user = [])
    (hr : e.received = []) : Heard user pairs { v with events := v.events ++ [e] } := by
  refine ⟨?_, ?_⟩
  · rw [emittedBy_append, h.silent]
    simp [emittedBy, he]
  · rw [List.flatMap_append, h.received]
    simp [hr]

/-- How the controller of the reducer process ends, or comes to a cut. -/
def reducerCtlCalm (user : Sys → User) (msgs : List Msg) (x : Except Int ReducerPhase) (v : View Ptr) : Prop :=
  match x with
  | .ok (.collect tb) => ∃ (pairs : List Pair) (rest : List Msg), pairs ++ rest.map Msg.pair = msgs.map Msg.pair ∧ Heard user pairs v ∧
      v.stdin = rest.flatMap Msg.wire ∧ TableInv tb pairs (pairs.map Prod.fst)
  | .ok .work => False
  | .error c => v.astray = true ∨ c = exitSuccess ∧ Heard user (msgs.map Msg.pair) v

/-- A worker has emitted what its calls of the user's reducer emit, and received nothing. -/
structure Worked (user : Sys → User) (v : View Ptr) : Prop where
  emits : v.emits = emittedBy user v.events
  received : v.events.flatMap Event.received = []

theorem Worked.note {v : View Ptr} (h : Worked user v) {e : Event Ptr} (he : e.emits user = []) (hr : e.received = []) :
    Worked user { v with events := v.events ++ [e] } := by
  refine ⟨?_, ?_⟩
  · rw [emittedBy_append, h.emits]
    simp [emittedBy, he]
  · rw [List.flatMap_append, h.received]
    simp [hr]

/-- It has called the user's reducer, which has returned. -/
theorem Worked.call {v : View Ptr} (h : Worked user v) (p : Ptr) (e : Sys) :
    Worked user { v with events := v.events ++ [.called p e], emits := v.emits ++ (user e).emits } := by
  refine ⟨?_, ?_⟩
  · rw [emittedBy_append, h.emits]
    simp [emittedBy, Event.emits]
  · rw [List.flatMap_append, h.received]
    rfl

/-- How a worker ends, or comes to its cut. -/
def reducerWkCalm (user : Sys → User) (x : Except Int ReducerPhase) (v : View Ptr) : Prop :=
  Worked user v ∧ ∀ tb, x ≠ .ok (.collect tb)

theorem astray_calm {t : Tid} {Q : Except Int α → View Ptr → Prop} {v : View Ptr}
    (h : Q (.error exitFailure) { v with astray := true }) :
    (astray : Th Ptr α).run.Wp (calmEnv user anyEvent t) Q v := wp_stuck_calm fun _ => wp_returns h

/-- How a loop over the nodes ends: they have only been read. -/
abbrev Scanned (user : Sys → User) (pairs : List Pair) : Except Int Unit → View Ptr → Prop :=
  Leaves (Heard user pairs) fun _ v => v.astray = true

theorem pushChain_calm {fuel : Nat} {hds : List (Option Ptr)} {pairs : List Pair} : ∀ (n : Nat) (hd : Option Ptr)
    {v : View Ptr}, Heard user pairs v →
      (pushChain args fuel hds n hd).run.Wp (calmEnv user anyEvent .controller) (Scanned user pairs) v
  | 0, none, _, h | _ + 1, none, _, h => h
  | 0, some p, v, _ => astray_calm rfl
  | n + 1, some p, v, h => by
    rw [pushChain]
    refine wp_load_calm trivial fun r => ?_
    cases r with
    | none => exact astray_calm rfl
    | some node =>
      refine wp_push_calm (wp_exitCheck (fun _ => ?_) fun h => absurd h (by decide))
      exact pushChain_calm n node.next (h.note rfl rfl)

theorem pushBuckets_calm {fuel : Nat} {pairs : List Pair} : ∀ (hds : List (Option Ptr)) {v : View Ptr},
    Heard user pairs v →
      (pushBuckets args fuel hds).run.Wp (calmEnv user anyEvent .controller) (Scanned user pairs) v
  | [], _, h => h
  | hd :: hds, v, h => by
    rw [pushBuckets]
    refine wp_th_bind ((pushChain_calm fuel hd h).mono fun x v' hx => ?_)
    cases x with
    | error c => exact hx
    | ok _ => exact pushBuckets_calm hds hx

theorem reducerMain_calm : reducerProcessMain.run.Wp (calmEnv user anyEvent .controller) (reducerCtlCalm user msgs)
    (.start (msgs.flatMap Msg.wire)) := by
  refine wp_log_calm (wp_exitCheck (fun _ => ?_) fun h => absurd h (by decide))
  exact ⟨[], msgs, rfl, ⟨rfl, rfl⟩, rfl, tableInv_empty⟩

/-- The end of the collection. -/
theorem reducerAllocate_calm (hfit : args.Fits sizeofPtr) {tb : Table} {v : View Ptr} :
    (reducerAllocate args tb).run.Wp (calmEnv user anyEvent .controller)
      (fun x v' => ∃ threads tArgs, x = .ok (threads, tArgs) ∧ args.Blocks threads tArgs ∧
        v' = { v with events := v.events ++ [.came tb.nodes] }) v := by
  refine wp_share_calm (wp_note_calm trivial ?_)
  refine wp_calmIo (mrQueueInitCalls_calm hfit.queue ?_)
  refine wp_exitCheck (fun _ => ?_) fun h => absurd h (by decide)
  refine wp_allocates_calm (.inr (.inl rfl)) (wp_ite (fun h => absurd h (by decide)) fun _ => ?_)
  exact wp_blocks_calm hfit fun threads tArgs hb => ⟨threads, tArgs, rfl, hb, rfl⟩

/-- **From the end of the collection on.** -/
theorem reducerProcess_calm (hfit : args.Fits sizeofPtr) {tb : Table} {v : View Ptr}
    (h : Heard user (msgs.map Msg.pair) v) :
    (reducerProcess args tb).run.Wp (calmEnv user anyEvent .controller) (reducerCtlCalm user msgs) v := by
  refine wp_th_bind ((reducerAllocate_calm hfit).mono ?_)
  rintro _ _ ⟨threads, tArgs, rfl, hb, rfl⟩
  refine wp_th_bind ((createWorkers_calm _ 0 _ (by rw [Nat.zero_add]; exact (hfit.slots hb).ge)).mono ?_)
  rintro _ _ ⟨rfl, rfl⟩
  refine wp_th_bind ((pushBuckets_calm _ (h.note rfl rfl)).mono fun x v' hx => ?_)
  cases x with
  | error c => exact .inl hx
  | ok _ =>
    refine wp_close_calm (wp_exitCheck (fun _ => ?_) fun h => absurd h (by decide))
    refine wp_th_bind ((joinWorkers_calm _ _ _).mono ?_)
    rintro _ _ ⟨rfl, rfl⟩
    exact wp_log_calm (wp_exitCheck (fun _ => .inr ⟨rfl, hx⟩) fun h => absurd h (by decide))

/-- **An iteration of the collection loop**, and what follows the loop. -/
theorem reducerCollect_calm (hfit : args.Fits sizeofPtr) (hmany : msgs.length < 2 ^ 58) {tb : Table} {v : View Ptr}
    (h : reducerCtlCalm user msgs (.ok (.collect tb)) v) :
    (reducerCollect args tb).run.Wp (calmEnv user anyEvent .controller) (reducerCtlCalm user msgs) v := by
  obtain ⟨pairs, rest, hall, hv, hin, hinv⟩ := h
  cases rest with
  | nil =>
    rw [List.map_nil, List.append_nil] at hall
    subst hall
    have heof : receivePairFromMapper.Wp (calmIo user .controller) (fun r st => r = .eof ∧ st = []) v.stdin := by
      rw [hin]
      exact wp_stream (receivePair_eof _)
    refine wp_calmIo (heof.mono ?_)
    rintro _ _ ⟨rfl, rfl⟩
    exact reducerProcess_calm hfit ⟨hv.silent, hv.received⟩
  | cons m rest =>
    have hpair : receivePairFromMapper.Wp (calmIo user .controller)
        (fun r st => r = .pair (some (m.token.bytes ++ [0])) m.value.bytes ∧ st = rest.flatMap Msg.wire) v.stdin := by
      rw [hin]
      exact wp_stream (receivePair_wire _ m _)
    refine wp_calmIo (hpair.mono ?_)
    rintro _ _ ⟨rfl, rfl⟩
    refine wp_note_calm trivial (wp_calmIo ((wp_stream (collectPair_spec hinv m)).mono ?_))
    rintro _ _ ⟨rfl, ⟨tb', rfl, hinv'⟩ | ⟨rfl, hlen⟩⟩
    · refine ⟨pairs ++ [m.pair], rest, by simpa using hall, ⟨?_, ?_⟩, rfl, hinv'⟩
      · rw [emittedBy_append, hv.silent]
        rfl
      · rw [List.flatMap_append, hv.received]
        simp [Event.received, cstr_token, Msg.pair]
    · have := congrArg List.length hall
      simp at this
      omega

theorem reducerWorker_calm {i : Nat} :
    reducerWorker.run.Wp (calmEnv user anyEvent (.worker i)) (reducerWkCalm user) (.start []) := by
  refine wp_log_calm (wp_exitCheck (fun _ => ⟨⟨rfl, rfl⟩, ?_⟩) fun h => absurd h (by decide))
  simp

theorem reducerWork_calm {i : Nat} {v : View Ptr} (h : reducerWkCalm user (.ok .work) v) :
    reducerWork.run.Wp (calmEnv user anyEvent (.worker i)) (reducerWkCalm user) v := by
  obtain ⟨hv, -⟩ := h
  refine wp_pop_calm (fun p => wp_load_calm trivial fun r => ?_) (astray_calm ⟨⟨hv.emits, hv.received⟩, by simp⟩) ?_
  · have hread : Worked user { v with events := v.events ++ [.read p] } := hv.note rfl rfl
    cases r with
    | none => exact astray_calm ⟨⟨hread.emits, hread.received⟩, by simp⟩
    | some node =>
      have hcall := hread.call p (.reducer node.token node.arguments)
      refine wp_note_calm trivial (wp_callUser_calm rfl (wp_ite (fun _ => ?_) fun _ => ?_))
      · refine wp_note_calm trivial (wp_load_calm trivial fun _ => wp_logError_calm ?_)
        refine wp_load_calm trivial fun _ => wp_note_calm trivial ⟨?_, by simp⟩
        exact (((hcall.note (e := .failed p) rfl rfl).note (e := .read p) rfl rfl).note (e := .read p) rfl rfl).note rfl rfl
      · refine wp_load_calm trivial fun _ => wp_note_calm trivial ⟨?_, by simp⟩
        exact (hcall.note (e := .read p) rfl rfl).note rfl rfl
  · refine wp_note_calm trivial (wp_log_calm (wp_exitCheck (fun _ => ⟨?_, by simp⟩) fun h => absurd h (by decide)))
    exact hv.note rfl rfl

/-- **The reducer process in a run in which no call fails.** -/
def reducerCalm (args : PoolArgs) (user : Sys → User) (msgs : List Msg) (hfit : args.Fits sizeofPtr)
    (hmany : msgs.length < 2 ^ 58) : CalmCode (reducerCode args) user anyEvent (msgs.flatMap Msg.wire) where
  ctl := reducerCtlCalm user msgs
  wk := reducerWkCalm user
  main := reducerMain_calm
  ctlBody ph v h := by
    cases ph with
    | collect tb => exact reducerCollect_calm hfit hmany h
    | work => exact h.elim
  first := by
    obtain ⟨c, k, hk, -⟩ := reducerWorker_wk args
    exact ⟨c, k, hk⟩
  worker i := reducerWorker_calm
  wkBody i ph v h := by
    cases ph with
    | collect tb => exact absurd rfl (h.2 tb)
    | work => exact reducerWork_calm h

end

/-! ## The output -/

section

variable {args : PoolArgs} {user : Sys → User} {msgs : List Msg} {s : Hosted Ptr ReducerPhase}

/-- **The end of such a run**: the calls and the messages put out. -/
structure ReducerEnd (user : Sys → User) (msgs : List Msg) (s : Hosted Ptr ReducerPhase) (ms : List Msg) : Prop where
  calls : (callsOf s.threads.mem.user.events).Perm (reducerCalls (msgs.map Msg.pair))
  out : s.threads.mem.stdout.out = ms.flatMap Msg.wire
  sent : s.threads.mem.stdout.sent = ms.length
  perm : ms.Perm ((reducerCalls (msgs.map Msg.pair)).flatMap fun e => (user e).emits)

theorem reducer_end (hfit : args.Fits sizeofPtr) (hmany : msgs.length < 2 ^ 58)
    (h : Reach (reducerSystem args (msgs.flatMap Msg.wire)) (Calm (reducerCode args) user) s) {c : Int}
    (hd : s.threads.loc .controller = .done c) : c = exitSuccess ∧ ∃ ms, ReducerEnd user msgs s ms := by
  let K := reducerCalm args user msgs hfit hmany
  obtain ⟨τ, log, hacc⟩ := K.accounted h
  obtain ⟨v, hastray, -, hv, -, hctl⟩ := K.ctl_done hacc hd
  have hctl : v.astray = true ∨ c = exitSuccess ∧ Heard user (msgs.map Msg.pair) v := hctl
  rcases hctl with ha | ⟨rfl, hheard⟩
  · rw [hastray] at ha
    cases ha
  obtain ⟨fs, g, hs, hfs, hp⟩ := pooled_of_ok (reducerContract args) (h.mono fun s a hc => hc.ok)
  have hat := hp.ctl
  rw [hd] at hat
  obtain ⟨hret, -, tb, hG⟩ := hat.2.success rfl
  have hover : Over s.threads := hp.over hret hd
  have hend := hp.concluded hs hfs hret
  have hnil : g.stack = [] := hp.none_left hend fun h => by cases h
  -- the calls
  have hnone := K.no_worker hacc hover (f := Event.received) fun c v hv => hv.1.received
  have hreceived : receivedOf s.threads.mem.user.events = msgs.map Msg.pair := by
    rw [receivedOf_eq, flatMap_eventsBy hnone, ← hv, hheard.received]
  have hserved := hp.served hret hend.refused hend.lost (hp.queue.count.trans (List.length_eq_zero_iff.mpr hnil))
  have hheap : s.threads.mem.user.heap = fun p => tb.heap[p]? := hG.heap
  have hborn : cameOf s.threads.mem.user.events = tb.nodes := hp.good.synced.born.symm.trans hG.born
  rw [hheap, hborn] at hserved
  have hcalls : (callsOf s.threads.mem.user.events).Perm (reducerCalls (msgs.map Msg.pair)) := by
    rw [← hreceived]
    exact hserved.trans hG.inv.calls
  -- the messages
  have hby := K.output_by hacc hover (fun c v h0 hv => by
    rcases hv with ha | ⟨-, hv⟩
    · rw [h0] at ha
      cases ha
    · exact hv.silent) (fun c v _ hv => hv.1.emits)
  obtain ⟨hout, hsent⟩ := hacc.out hover.quiet
  refine ⟨rfl, log.map Prod.snd, hcalls, ?_, by rw [hsent, List.length_map],
    (perm_emitted hby).trans (hcalls.flatMap_right _)⟩
  rw [hout, wires, List.flatMap_map]

/-- **What the reducer process puts out.** -/
theorem reducer_output (args : PoolArgs) (user : Sys → User) (msgs : List Msg) (hfit : args.Fits sizeofPtr)
    (hmany : msgs.length < 2 ^ 58) {s : Hosted Ptr ReducerPhase}
    (h : Reach (reducerSystem args (msgs.flatMap Msg.wire)) (Calm (reducerCode args) user) s) {c : Int}
    (hd : s.threads.loc .controller = .done c) :
    c = exitSuccess ∧ (callsOf s.threads.mem.user.events).Perm (reducerCalls (msgs.map Msg.pair)) ∧
      ∃ ms : List Msg, s.threads.mem.stdout.out = ms.flatMap Msg.wire ∧ s.threads.mem.stdout.sent = ms.length ∧
        ms.Perm ((reducerCalls (msgs.map Msg.pair)).flatMap fun e => (user e).emits) := by
  obtain ⟨rfl, ms, hend⟩ := reducer_end hfit hmany h hd
  exact ⟨rfl, hend.calls, ms, hend.out, hend.sent, hend.perm⟩

end

/-! ## A run -/

/-- A user's reducer that emits the values of every token, joined, and fails. -/
def joinsAndFails : Sys → User
  | .reducer token values => .emit ⟨if token = [97] then .a else tokenB, .ofBytes values.flatten⟩ fun _ => .ret (-1)
  | _ => .ret 0

/-- Two workers reduce two tokens, one of which has two values; the token that came last is the first in the output. -/
theorem reducer_output_twoWorkers : ∃ (s : Hosted Ptr ReducerPhase) (ms : List Msg),
    Reach (reducerSystem twoThreads (pairsABA.flatMap Msg.wire)) (Calm (reducerCode twoThreads) joinsAndFails) s ∧
      s.threads.loc .controller = .done exitSuccess ∧ s.threads.mem.stdout.out = ms.flatMap Msg.wire ∧
        s.threads.mem.stdout.out = Msg.wire ⟨tokenB, .empty⟩ ++ Msg.wire ⟨.a, .ofBytes [120, 121]⟩ ∧
        ms.Perm ((reducerCalls [([97], [120]), ([98], []), ([97], [121])]).flatMap fun e => (joinsAndFails e).emits) := by
  have hrun : ∃ s, Reach (reducerSystem twoThreads (pairsABA.flatMap Msg.wire))
      (Calm (reducerCode twoThreads) joinsAndFails) s ∧ endsAfter twoThreads 0 2 2 s ∧
        s.threads.mem.stdout.out = Msg.wire ⟨tokenB, .empty⟩ ++ Msg.wire ⟨.a, .ofBytes [120, 121]⟩ := by
    apply reach_calm _ (turns .controller 46 ++ turns (.worker 0) 8 ++ [.wake (.worker 0) .controller] ++
      turns (.worker 0) 1 ++ turns .controller 6 ++ turns (.worker 1) 31 ++ turns (.worker 0) 22 ++ turns .controller 9)
    decide +kernel
  obtain ⟨s, hr, ⟨hc, -, -⟩, hout⟩ := hrun
  have hd : s.threads.loc .controller = .done exitSuccess := loc_of_done (Call.code?_eq.mp hc)
  obtain ⟨-, -, ms, ho, -, hms⟩ := reducer_output twoThreads joinsAndFails pairsABA ⟨by decide, by decide⟩
    (by decide) hr hd
  exact ⟨s, ms, hr, hd, ho, hout, hms⟩

end MrLib
