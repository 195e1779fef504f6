import MrLib.Process.CalmRules

/-!
# What a process has put out

When the threads of a process have ended, in a run in which no call fails, the standard output holds the messages of the
user's functions that were called (`CalmCode.output_by`, `perm_emitted`): each message once and whole, in some order that keeps those of a
thread in theirs. The user's function was called once for every element that came, but for those that are left in the
queue (`Pooled.remains`); and there are none unless every worker has given up (`Pooled.none_left`).
-/

namespace MrLib

open Conc Conc.WorkPool

variable {ω Φ : Type}

/-! ## The history, thread by thread -/

/-- What comes to the controller by an event. -/
def Event.coming : Event ω → List ω
  | .came xs => xs
  | _ => []

/-- What the user's function emits that is called by an event. -/
def Event.emits (user : Sys → User) : Event ω → List Msg
  | .called _ e => (user e).emits
  | _ => []

/-- What the user's functions emit that a thread has called. -/
def emittedBy (user : Sys → User) (es : List (Event ω)) : List Msg := es.flatMap (Event.emits user)

theorem emittedBy_append (user : Sys → User) (es es' : List (Event ω)) :
    emittedBy user (es ++ es') = emittedBy user es ++ emittedBy user es' := List.flatMap_append

/-- The messages of the user's functions that were called, with the threads that called them. -/
def emitted (user : Sys → User) (es : List (Tid × Event ω)) : List (Tid × Msg) :=
  es.flatMap fun x => (x.2.emits user).map fun m => (x.1, m)

theorem pairsOf_emitted (user : Sys → User) (t : Tid) (es : List (Tid × Event ω)) :
    pairsOf t (emitted user es) = emittedBy user (eventsBy t es) := by
  induction es with
  | nil => rfl
  | cons x es ih =>
    have hcons : emitted user (x :: es) = (x.2.emits user).map (fun m => (x.1, m)) ++ emitted user es := rfl
    rw [hcons, pairsOf_append, ih]
    by_cases hx : x.1 = t
    · simp [pairsOf, eventsBy, emittedBy, hx, List.filter_map, Function.comp_def]
    · simp [pairsOf, eventsBy, emittedBy, hx, List.filter_map, Function.comp_def]

theorem map_emitted (user : Sys → User) (es : List (Tid × Event ω)) :
    (emitted user es).map Prod.snd = (callsOf es).flatMap fun e => (user e).emits := by
  induction es with
  | nil => rfl
  | cons x es ih =>
    have hcons : emitted user (x :: es) = (x.2.emits user).map (fun m => (x.1, m)) ++ emitted user es := rfl
    rw [hcons, List.map_append, ih, List.map_map]
    obtain ⟨t, e⟩ := x
    cases e with
    | called x e => simp [callsOf, Event.emits, Function.comp_def]
    | _ => rfl

/-- What only the controller records is in its history. -/
theorem flatMap_eventsBy {β : Type} {f : Event ω → List β} {es : List (Tid × Event ω)}
    (h : ∀ i e, (Tid.worker i, e) ∈ es → f e = []) :
    (es.flatMap fun x => f x.2) = (eventsBy .controller es).flatMap f := by
  induction es with
  | nil => rfl
  | cons x es ih =>
    have hrest := ih fun i e he => h i e (List.mem_cons_of_mem _ he)
    obtain ⟨t, e⟩ := x
    rw [List.flatMap_cons, hrest]
    cases t with
    | controller => rfl
    | worker i =>
      rw [h i e List.mem_cons_self]
      rfl

theorem cameOf_eq (es : List (Tid × Event ω)) : cameOf es = es.flatMap fun x => x.2.coming := by
  refine List.flatMap_congr fun x _ => ?_
  cases x.2 <;> rfl

/-- Two logs with the same messages of each thread have the same messages. -/
theorem perm_of_pairsOf {T : Type} [DecidableEq T] {log log' : List (T × Msg)} (h : ∀ t, pairsOf t log = pairsOf t log') :
    log.Perm log' := by
  classical
  have count : ∀ (l : List (T × Msg)) (t : T) (m : Msg), l.count (t, m) = (pairsOf t l).count m := by
    intro l t m
    induction l with
    | nil => rfl
    | cons x l ih =>
      obtain ⟨u, n⟩ := x
      have hcons : pairsOf t ((u, n) :: l) = pairsOf t [(u, n)] ++ pairsOf t l := pairsOf_append t [(u, n)] l
      rw [List.count_cons, hcons, List.count_append, ih, pairsOf_singleton, Nat.add_comm]
      congr 1
      by_cases hu : u = t
      · by_cases hn : n = m <;> simp [hu, hn]
      · simp [hu]
  exact List.perm_iff_count.mpr fun x => by rw [count log x.1 x.2, count log' x.1 x.2, h x.1]

/-- A log with the messages of one thread. -/
theorem map_eq_pairsOf {T : Type} [DecidableEq T] {log : List (T × Msg)} {u : T} (h : ∀ t, t ≠ u → pairsOf t log = []) :
    log.map Prod.snd = pairsOf u log := by
  have hall : log.filter (fun x => x.1 = u) = log := by
    rw [List.filter_eq_self]
    intro x hx
    by_contra hne
    have hm : x.2 ∈ pairsOf x.1 log := List.mem_map.mpr ⟨x, by simp [hx], rfl⟩
    rw [h x.1 (by simpa using hne)] at hm
    cases hm
  rw [pairsOf, hall]

/-- **The messages that were put out**, if those of each thread are those that its calls emit. -/
theorem perm_emitted {user : Sys → User} {log : List (Tid × Msg)} {es : List (Tid × Event ω)}
    (h : ∀ t, pairsOf t log = emittedBy user (eventsBy t es)) :
    (log.map Prod.snd).Perm ((callsOf es).flatMap fun e => (user e).emits) := by
  rw [← map_emitted]
  refine List.Perm.map _ (perm_of_pairsOf fun t => ?_)
  rw [h t, pairsOf_emitted]

/-- They are in the order of the calls if one thread has made them all. -/
theorem eq_emitted {user : Sys → User} {log : List (Tid × Msg)} {es : List (Tid × Event ω)} {u : Tid}
    (h : ∀ t, pairsOf t log = emittedBy user (eventsBy t es)) (hu : ∀ t, t ≠ u → emittedBy user (eventsBy t es) = []) :
    log.map Prod.snd = (callsOf es).flatMap fun e => (user e).emits := by
  rw [← map_emitted, map_eq_pairsOf (u := u) fun t ht => (h t).trans (hu t ht),
    map_eq_pairsOf (u := u) fun t ht => (pairsOf_emitted user t es).trans (hu t ht), h u, pairsOf_emitted]

/-! ## The end -/

section

variable {C : ProcessCode ω Φ} {user : Sys → User} {N : Event ω → Prop} {stdin : Bytes} {s : Hosted ω Φ}
  {τ : Tid → ThreadTrace ω} {log : List (Tid × Msg)}

/-- Where no thread is in an emit, the standard output is whole. -/
theorem ProcessCode.Accounted.out {A : Sys → Ret Val → Prop} (h : C.Accounted A stdin s τ log)
    (hq : ∀ t, ¬ TLoc.inEmit (s.threads.loc t)) :
    s.threads.mem.stdout.out = wires log ∧ s.threads.mem.stdout.sent = log.length := by
  refine ⟨h.framed.free ?_, h.framed.sent⟩
  by_contra hne
  obtain ⟨t, ht⟩ := Option.ne_none_iff_exists'.mp hne
  exact hq t ((h.mutex t).mp ht).1

/-- A thread that does not exist has recorded nothing. -/
theorem ProcessCode.Accounted.eventsBy_absent {A : Sys → Ret Val → Prop} (h : C.Accounted A stdin s τ log) {t : Tid}
    (ht : s.threads.loc t = .absent) : eventsBy t s.threads.mem.user.events = [] := by
  have hat := h.traced.trodden t
  rw [ht] at hat
  have hnil : τ t = [] := hat
  rw [h.traced.events t, hnil]
  rfl

theorem Over.quiet (h : Over s.threads) (t : Tid) : ¬ TLoc.inEmit (s.threads.loc t) := by
  rintro ⟨m, e, f, hl, -⟩
  rcases h t with ⟨c, hc⟩ | hc <;> rw [hl] at hc <;> cases hc

/-- The messages of thread `t` on the standard output are those of the user's functions that it has called. -/
theorem CalmCode.output_by (K : CalmCode C user N stdin) (h : C.Accounted (Proper user) stdin s τ log) (ho : Over s.threads)
    (hctl : ∀ c v, v.astray = false → K.ctl (.error c) v → emittedBy user v.events = [])
    (hwk : ∀ c v, v.astray = false → K.wk (.error c) v → v.emits = emittedBy user v.events) (t : Tid) :
    pairsOf t log = emittedBy user (eventsBy t s.threads.mem.user.events) := by
  rw [h.emitted t]
  rcases ho t with ⟨c, hc⟩ | hc
  · have hw : (s.threads.loc t).written = [] := by
      rw [hc]
      rfl
    rw [hw, List.append_nil]
    cases t with
    | controller =>
      obtain ⟨v, h0, -, h1, h2, h3⟩ := K.ctl_done h hc
      rw [← h1, h2, hctl c v h0 h3]
    | worker i =>
      obtain ⟨v, h0, h1, h2, h3⟩ := K.wk_done h hc
      rw [← h1, ← h2, hwk c v h0 h3]
  · have hat := h.traced.trodden t
    rw [hc] at hat ⊢
    have hnil : τ t = [] := hat
    rw [hnil, h.eventsBy_absent hc]
    rfl

/-- What no worker records. -/
theorem CalmCode.no_worker (K : CalmCode C user N stdin) (h : C.Accounted (Proper user) stdin s τ log) (ho : Over s.threads)
    {β : Type} {f : Event ω → List β} (hf : ∀ c v, K.wk (.error c) v → v.events.flatMap f = []) (i : Nat) (e : Event ω)
    (he : (Tid.worker i, e) ∈ s.threads.mem.user.events) : f e = [] := by
  have hm := mem_eventsBy.mpr he
  rcases ho (.worker i) with ⟨c, hc⟩ | hc
  · obtain ⟨v, -, hv, -, hwk⟩ := K.wk_done h hc
    rw [← hv] at hm
    exact List.flatMap_eq_nil_iff.mp (hf c v hwk) e hm
  · rw [h.eventsBy_absent hc] at hm
    cases hm

end

/-! ## Nothing is left -/

section

variable {C : ProcessCode ω Φ} {P : Spec} {job : Heap ω → ω → Sys} {K : Contract C P job} {s : PoolState ω Φ} {g : State ω}
  {fs : List Fault}

/-- The pool of a process that has ended as it should, when nothing went wrong. -/
structure Concluded (P : Spec) (g : State ω) : Prop where
  returned : Returned P g.ctl
  out : ∀ i < P.workers, (g.wk i).out = true
  refused : g.ctl.refused = false
  lost : g.lost = []
  left : g.stack ≠ [] → P.stops = true ∧ g.failed.length = P.workers

theorem Pooled.concluded (h : Pooled K s g) (hs : Steps P .start fs g) (hfs : ∀ f ∈ fs, f = .none)
    (hret : Returned P g.ctl) : Concluded P g := by
  have hcauses := hs.causes
  have hout : ∀ i < P.workers, (g.wk i).out = true := fun i hi => h.good.inv.joined i (hret.joined i hi)
  have hwell : ∀ f ∈ fs, f ≠ .lost ∧ f ≠ .crashed := fun f hf => by simp [hfs f hf]
  refine ⟨hret, hout, ?_, ?_, stopped_of_left hs hwell h.good.inv h.good.faults K.workers_pos hout⟩
  · by_contra hne
    rcases hcauses.refused (by simpa using hne) with h0 | h0 | h0
    · cases h0
    · cases hfs _ h0
    · cases hfs _ h0
  · by_contra hne
    rcases hcauses.lost hne with h0 | h0
    · exact h0 rfl
    · cases hfs _ h0

/-- **What was not served is left in the queue.** -/
theorem Pooled.remains (h : Pooled K s g) (hg : Concluded P g) :
    (calledOf s.mem.user.events ++ g.stack).Perm (cameOf s.mem.user.events) := by
  have hp := h.good.ledger.remains hg.out hg.refused (hg.returned.keeping hg.refused) hg.returned.held hg.lost
  rwa [h.good.synced.called, h.good.synced.born] at hp

/-- Nothing is left if fewer jobs have failed than there are workers, or the workers go on. -/
theorem Pooled.none_left (h : Pooled K s g) (hg : Concluded P g)
    (hfew : P.stops = true → (failedOf s.mem.user.events).length < P.workers) : g.stack = [] := by
  by_contra hne
  obtain ⟨hstops, hall⟩ := hg.left hne
  have := hfew hstops
  rw [← h.good.synced.failed, hall] at this
  exact absurd this (lt_irrefl _)

/-- Everything was served in order, by one worker with a queue for one element. -/
theorem Pooled.served_in_order (h : Pooled K s g) (hg : Concluded P g) (hs : g.stack = []) (hP : P.workers = 1)
    (hc : P.capacity = 1) : calledOf s.mem.user.events = cameOf s.mem.user.events := by
  have horder := h.good.ledger.served_in_order hP hc (hg.out 0 K.workers_pos) hg.refused
    (hg.returned.keeping hg.refused) hg.returned.held hs hg.lost
  rwa [h.good.synced.called, h.good.synced.born] at horder

/-- The jobs that have failed were run. -/
theorem Pooled.failed_le (h : Pooled K s g) :
    (failedOf s.mem.user.events : Multiset ω) ≤ calledOf s.mem.user.events := by
  rw [← h.good.synced.failed, ← h.good.synced.called]
  exact (Multiset.le_add_right _ _).trans h.good.faults.failed

theorem mem_failedOf {es : List (Tid × Event ω)} {x : ω} (h : x ∈ failedOf es) : ∃ t, (t, Event.failed x) ∈ es := by
  rw [failedOf, List.mem_filterMap] at h
  obtain ⟨⟨t, e⟩, he, hx⟩ := h
  cases e with
  | failed y =>
    cases hx
    exact ⟨t, he⟩
  | _ => cases hx

end

end MrLib
