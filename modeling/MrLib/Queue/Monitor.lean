import Mathlib.Data.Finset.Card
import Mathlib.Logic.Function.Basic
import MrLib.Queue.Code

/-!
# The queue as a monitor

What the critical sections of `mr_queue_push`, `mr_queue_pop` and `mr_queue_close` see of a process: the location of
the thread inside (`holder`), who sleeps and who has been woken on `full` and `empty`, and the queue. The steps
(`Monitor.Step`) are those of the code, one critical section being a sequence of them from an `acquire` or a
`reacquire` to a `release` or a `sleep`.

`Monitor.Inv` is the counting invariant behind the absence of lost wake-ups (`Monitor.Inv.step`): beside a sleeper on
`empty`, every element has a woken consumer that has not come back yet, or is the one its producer is about to signal;
the same for free slots and the sleepers on `full`.
-/

namespace MrLib

open Conc

variable {T β : Type} {es : Nat}

/-- What a thread at this location, holding the mutex, knows of the queue. -/
def QLoc.Pre (q : Queue β) : QLoc β es → Prop
  | .pushWait _ => q.count = q.capacity
  | .popWait => q.count = 0 ∧ q.closed = false
  | .popClosed => q.count = 0 ∧ q.closed = true
  | _ => True

/-- The queue and the threads at it. -/
structure Monitor (T β : Type) (es : Nat) where
  holder : Option (QLoc β es)
  asleep : Cv → Finset T
  woken : Cv → Finset T
  queue : Queue β

namespace Monitor

/-- 1 if the thread inside is about to signal `c`. -/
def owed (v : Monitor T β es) (c : Cv) : Nat :=
  match v.holder with
  | some l => if l.prim = .signal c then 1 else 0
  | none => 0

/-- `u` moves from the sleepers of `c` to the woken. -/
def rouse [DecidableEq T] (v : Monitor T β es) (c : Cv) (u : T) : Monitor T β es :=
  { v with
    asleep := Function.update v.asleep c ((v.asleep c).erase u)
    woken := Function.update v.woken c (insert u (v.woken c)) }

/-- The steps of the critical sections. -/
inductive Step [DecidableEq T] (v : Monitor T β es) : Monitor T β es → Prop
  | acquire {l l' : QLoc β es} {q : Queue β} (hc : l.prim = .lock) (hh : v.holder = none)
      (hl : l.next v.queue (.ok : Ret Empty) = (.inl l', q)) : Step v { v with holder := some l', queue := q }
  | reacquire {l l' : QLoc β es} {q : Queue β} {c : Cv} {t : T} (hc : l.prim = .wait c) (hh : v.holder = none)
      (hw : t ∈ v.woken c) (hl : l.next v.queue (.ok : Ret Empty) = (.inl l', q)) :
      Step v { v with
        holder := some l'
        queue := q
        woken := Function.update v.woken c ((v.woken c).erase t) }
  | sleep {l : QLoc β es} {c : Cv} {t : T} (hc : l.prim = .wait c) (hh : v.holder = some l) :
      Step v { v with holder := none, asleep := Function.update v.asleep c (insert t (v.asleep c)) }
  | signal {l l' : QLoc β es} {c : Cv} {u : T} (hc : l.prim = .signal c) (hh : v.holder = some l)
      (hl : l.next v.queue (.ok : Ret Empty) = (.inl l', v.queue)) (hu : u ∈ v.asleep c) (hn : u ∉ v.woken c) :
      Step v { v.rouse c u with holder := some l' }
  | signalNone {l l' : QLoc β es} {c : Cv} (hc : l.prim = .signal c) (hh : v.holder = some l)
      (hl : l.next v.queue (.ok : Ret Empty) = (.inl l', v.queue)) (hu : v.asleep c = ∅) :
      Step v { v with holder := some l' }
  | broadcast {l l' : QLoc β es} {c : Cv} (hc : l.prim = .broadcast c) (hh : v.holder = some l)
      (hl : l.next v.queue (.ok : Ret Empty) = (.inl l', v.queue)) :
      Step v { v with
        holder := some l'
        asleep := Function.update v.asleep c ∅
        woken := Function.update v.woken c (v.woken c ∪ v.asleep c) }
  | release {l : QLoc β es} (hc : l.prim = .unlock) (hh : v.holder = some l) : Step v { v with holder := none }
  | spurious {c : Cv} {u : T} (hu : u ∈ v.asleep c) (hn : u ∉ v.woken c) : Step v (v.rouse c u)

/-- **The invariant of the monitor.** -/
structure Inv (v : Monitor T β es) : Prop where
  wf : v.queue.WF
  elementSize : v.queue.elementSize = es
  pre : ∀ l, v.holder = some l → l.Pre v.queue
  empty : (v.asleep .empty).Nonempty → v.queue.count ≤ (v.woken .empty).card + v.owed .empty
  open_ : (v.asleep .empty).Nonempty → v.queue.closed = true → ∃ l, v.holder = some l ∧ l.prim = .broadcast .empty
  full : (v.asleep .full).Nonempty → v.queue.capacity - v.queue.count ≤ (v.woken .full).card + v.owed .full

/-! ## Entering the critical section -/

/-- What the code between the acquisition of the mutex and the next call can do. -/
inductive Enter (q : Queue β) : QLoc β es → QLoc β es → Queue β → Prop
  | full {l : QLoc β es} (x : Elem β es) (hl : l.prim = .lock ∨ l.prim = .wait .full) (hc : q.count = q.capacity) :
      Enter q l (.pushWait x) q
  | put {l : QLoc β es} (x : Elem β es) (hl : l.prim = .lock ∨ l.prim = .wait .full) (hc : q.count ≠ q.capacity) :
      Enter q l .pushSignal (q.put x.1)
  | empty {l : QLoc β es} (hl : l.prim = .lock ∨ l.prim = .wait .empty) (hc : q.count = 0) (ho : q.closed = false) :
      Enter q l .popWait q
  | drained {l : QLoc β es} (hl : l.prim = .lock ∨ l.prim = .wait .empty) (hc : q.count = 0)
      (ho : q.closed = true) : Enter q l .popClosed q
  | take {l : QLoc β es} (hl : l.prim = .lock ∨ l.prim = .wait .empty) (hc : q.count ≠ 0) :
      Enter q l (.popSignal q.take.1) q.take.2
  | close {l : QLoc β es} (hl : l.prim = .lock) : Enter q l .closeBroadcast { q with closed := true }

theorem enter_push {q q' : Queue β} {l l' : QLoc β es} {x : Elem β es} (hl : l.prim = .lock ∨ l.prim = .wait .full)
    (h : q.pushTest x = (l', q')) : Enter q l l' q' := by
  unfold Queue.pushTest at h
  split at h
  · cases h; exact .full x hl ‹_›
  · cases h; exact .put x hl ‹_›

theorem enter_pop {q q' : Queue β} {l l' : QLoc β es} (hl : l.prim = .lock ∨ l.prim = .wait .empty)
    (h : q.popTest = (l', q')) : Enter q l l' q' := by
  unfold Queue.popTest at h
  split at h
  · split at h
    · cases h; exact .drained hl ‹_› ‹_›
    · cases h; exact .empty hl ‹_› (by simpa using ‹¬ q.closed = true›)
  · cases h; exact .take hl ‹_›

/-- The tests of the two loops, after a lock or a wait. -/
theorem enter_of_next {q q' : Queue β} {l l' : QLoc β es} (hc : l.prim = .lock ∨ ∃ c, l.prim = .wait c)
    (h : l.next q (.ok : Ret Empty) = (.inl l', q')) : Enter q l l' q' := by
  cases l with
  | pushLock x | pushWait x =>
    obtain ⟨h1, h2⟩ := Prod.ext_iff.mp h
    exact enter_push (by simp [QLoc.prim]) (Prod.ext (Sum.inl.inj h1) h2)
  | popLock | popWait =>
    obtain ⟨h1, h2⟩ := Prod.ext_iff.mp h
    exact enter_pop (by simp [QLoc.prim]) (Prod.ext (Sum.inl.inj h1) h2)
  | closeLock => cases h; exact .close rfl
  | _ => simp [QLoc.prim] at hc

/-- A thread enters, with `woken` as it leaves it: the invariant is restored. -/
theorem Inv.enter {v : Monitor T β es} (h : v.Inv) (hh : v.holder = none) {l l' : QLoc β es} {q : Queue β}
    (he : Enter v.queue l l' q) (w : Cv → Finset T)
    (hw : ∀ c, (v.woken c).card ≤ (w c).card + if l.prim = .wait c then 1 else 0) :
    Inv { v with holder := some l', queue := q, woken := w } := by
  have hopen : (v.asleep .empty).Nonempty → v.queue.closed = false := fun ha => by
    by_contra hc
    obtain ⟨_, hl, _⟩ := h.open_ ha (by simpa using hc)
    rw [hh] at hl
    cases hl
  have hE : (v.asleep .empty).Nonempty → v.queue.count ≤ (v.woken .empty).card := fun ha => by
    simpa [owed, hh] using h.empty ha
  have hF : (v.asleep .full).Nonempty → v.queue.capacity - v.queue.count ≤ (v.woken .full).card := fun ha => by
    simpa [owed, hh] using h.full ha
  have hes := h.elementSize
  have hwE := hw .empty
  have hwF := hw .full
  have hle := h.wf.le
  cases he with
  | full x hl hc =>
    have hp : l.prim ≠ .wait .empty := by rcases hl with e | e <;> simp [e]
    simp only [hp, if_false] at hwE
    refine ⟨h.wf, hes, fun _ e => by cases e; exact hc, fun ha => ?_, fun ha hcl => ?_, fun _ => ?_⟩
    · have := hE ha
      simp only [owed]
      omega
    · simp [hopen ha] at hcl
    · show v.queue.capacity - v.queue.count ≤ _
      omega
  | put x hl hc =>
    have hp : l.prim ≠ .wait .empty := by rcases hl with e | e <;> simp [e]
    simp only [hp, if_false] at hwE
    have hwf : (v.queue.put x.1).WF := h.wf.put (x.2.trans hes.symm) (by omega)
    refine ⟨hwf, hes, fun _ e => by cases e; trivial, fun ha => ?_, fun ha hcl => ?_, fun ha => ?_⟩
    · have := hE ha
      simp only [owed, QLoc.prim, if_true, Queue.put_count]
      omega
    · simp [hopen ha] at hcl
    · have := hF ha
      simp only [Queue.put_capacity, Queue.put_count]
      split at hwF <;> omega
  | empty hl hc ho =>
    have hp : l.prim ≠ .wait .full := by rcases hl with e | e <;> simp [e]
    simp only [hp, if_false] at hwF
    refine ⟨h.wf, hes, fun _ e => by cases e; exact ⟨hc, ho⟩, fun _ => ?_, fun ha hcl => ?_, fun ha => ?_⟩
    · show v.queue.count ≤ _
      omega
    · simp [ho] at hcl
    · have := hF ha
      simp only
      omega
  | drained hl hc ho =>
    have hp : l.prim ≠ .wait .full := by rcases hl with e | e <;> simp [e]
    simp only [hp, if_false] at hwF
    refine ⟨h.wf, hes, fun _ e => by cases e; exact ⟨hc, ho⟩, fun _ => ?_, fun ha _ => ?_, fun ha => ?_⟩
    · show v.queue.count ≤ _
      omega
    · simp [hopen ha] at ho
    · have := hF ha
      simp only
      omega
  | take hl hc =>
    have hp : l.prim ≠ .wait .full := by rcases hl with e | e <;> simp [e]
    simp only [hp, if_false] at hwF
    refine ⟨h.wf.take, hes, fun _ e => by cases e; trivial, fun ha => ?_, fun ha hcl => ?_, fun ha => ?_⟩
    · have := hE ha
      simp only [Queue.take_count]
      split at hwE <;> omega
    · simp [hopen ha] at hcl
    · have := hF ha
      simp only [owed, QLoc.prim, if_true, Queue.take_count, Queue.take_capacity]
      omega
  | close hl =>
    simp only [hl, reduceCtorEq, if_false] at hwE hwF
    refine ⟨⟨h.wf.length, h.wf.noWrap, hle⟩, hes, fun _ e => by cases e; trivial, fun ha => ?_, fun _ _ => ?_,
      fun ha => ?_⟩
    · have := hE ha
      simp only [owed]
      omega
    · exact ⟨_, rfl, rfl⟩
    · have := hF ha
      simp only
      omega

/-! ## The invariant is kept -/

section

variable {v v' : Monitor T β es}

/-- A thread that owes nothing and is not closing lets the mutex go, or moves on inside. -/
theorem Inv.hold (h : v.Inv) {o : Option (QLoc β es)} (ho : ∀ l, o = some l → l.Pre v.queue)
    (hE : (v.asleep .empty).Nonempty → v.queue.count ≤ (v.woken .empty).card)
    (hC : (v.asleep .empty).Nonempty → v.queue.closed = false)
    (hF : (v.asleep .full).Nonempty → v.queue.capacity - v.queue.count ≤ (v.woken .full).card) :
    Inv { v with holder := o } where
  wf := h.wf
  elementSize := h.elementSize
  pre := ho
  empty ha := (hE ha).trans (Nat.le_add_right _ _)
  open_ ha hc := by
    have := hC ha
    simp only at hc
    rw [this] at hc
    cases hc
  full ha := (hF ha).trans (Nat.le_add_right _ _)

theorem Inv.not_closed (h : v.Inv) {l : QLoc β es} (hh : v.holder = some l) (hl : l.prim ≠ .broadcast .empty)
    (ha : (v.asleep .empty).Nonempty) : v.queue.closed = false := by
  by_contra hc
  obtain ⟨l', hl', hp⟩ := h.open_ ha (by simpa using hc)
  rw [hh] at hl'
  cases hl'
  exact hl hp

theorem owed_eq {l : QLoc β es} (hh : v.holder = some l) (c : Cv) :
    v.owed c = if l.prim = .signal c then 1 else 0 := by
  simp [owed, hh]

variable [DecidableEq T]

@[simp] theorem rouse_holder (c : Cv) (u : T) : (v.rouse c u).holder = v.holder := rfl
@[simp] theorem rouse_queue (c : Cv) (u : T) : (v.rouse c u).queue = v.queue := rfl
@[simp] theorem rouse_owed (c c' : Cv) (u : T) : (v.rouse c u).owed c' = v.owed c' := rfl

theorem rouse_asleep_nonempty {c c' : Cv} {u : T} (h : ((v.rouse c u).asleep c').Nonempty) : (v.asleep c').Nonempty := by
  by_cases hc : c' = c
  · subst hc
    simp only [rouse, Function.update_self] at h
    exact h.mono (Finset.erase_subset _ _)
  · simpa [rouse, hc] using h

theorem rouse_woken_self {c : Cv} {u : T} (hn : u ∉ v.woken c) :
    ((v.rouse c u).woken c).card = (v.woken c).card + 1 := by
  simp [rouse, hn]

theorem rouse_woken_le (c c' : Cv) (u : T) : (v.woken c').card ≤ ((v.rouse c u).woken c').card := by
  by_cases hc : c' = c
  · subst hc
    simp only [rouse, Function.update_self]
    exact Finset.card_le_card (Finset.subset_insert _ _)
  · simp [rouse, hc]

/-- Waking somebody keeps the invariant, signal or not. -/
theorem Inv.rouse (h : v.Inv) (c : Cv) (u : T) : (v.rouse c u).Inv where
  wf := h.wf
  elementSize := h.elementSize
  pre := h.pre
  empty ha := (h.empty (rouse_asleep_nonempty ha)).trans (Nat.add_le_add_right (rouse_woken_le c .empty u) _)
  open_ ha hc := h.open_ (rouse_asleep_nonempty ha) hc
  full ha := (h.full (rouse_asleep_nonempty ha)).trans (Nat.add_le_add_right (rouse_woken_le c .full u) _)

/-- After its signal a thread only unlocks. -/
theorem pre_of_signal {q : Queue β} {l l' : QLoc β es} {c : Cv} (hc : l.prim = .signal c)
    (hl : l.next q (.ok : Ret Empty) = (.inl l', q)) : l'.Pre q := by
  cases l with
  | pushSignal => cases hl; trivial
  | popSignal x => cases hl; trivial
  | _ => simp [QLoc.prim] at hc

/-- **Every step of a critical section keeps the invariant.** -/
theorem Inv.step (h : v.Inv) (hs : v.Step v') : v'.Inv := by
  cases hs with
  | @acquire l l' q hc hh hl =>
    exact h.enter hh (enter_of_next (.inl hc) hl) v.woken fun c => Nat.le_add_right _ _
  | @reacquire l l' q c t hc hh hw hl =>
    refine h.enter hh (enter_of_next (.inr ⟨c, hc⟩) hl) _ fun c' => ?_
    by_cases hcc : c' = c
    · subst hcc
      simp only [Function.update_self, hc, if_true]
      have := Finset.card_erase_add_one hw
      omega
    · simp [hcc]
  | @sleep l c t hc hh =>
    have hpre := h.pre l hh
    have hE := h.empty
    have hF := h.full
    simp only [owed_eq hh, hc, reduceCtorEq, if_false, Nat.add_zero] at hE hF
    have hC := h.not_closed hh (by rw [hc]; simp)
    cases l with
    | pushWait x =>
      cases hc
      refine ⟨h.wf, h.elementSize, fun _ e => (nomatch e), fun ha => ?_, fun ha hcl => ?_, fun _ => ?_⟩
      · exact (hE (by simpa using ha)).trans (Nat.le_add_right _ _)
      · exact absurd hcl (by simp [hC (by simpa using ha)])
      · have hfull : v.queue.count = v.queue.capacity := hpre
        simp [hfull]
    | popWait =>
      cases hc
      obtain ⟨h0, ho⟩ := hpre
      refine ⟨h.wf, h.elementSize, fun _ e => (nomatch e), fun _ => ?_, fun _ hcl => ?_, fun ha => ?_⟩
      · simp [h0]
      · exact absurd hcl (by simp [ho])
      · exact (hF (by simpa using ha)).trans (Nat.le_add_right _ _)
    | _ => simp [QLoc.prim] at hc
  | @signal l l' c u hc hh hl hu hn =>
    have hE := h.empty
    have hF := h.full
    simp only [owed_eq hh, hc, Prim.signal.injEq] at hE hF
    have hC := h.not_closed hh (by rw [hc]; simp)
    have hr := rouse_woken_self hn
    have hc' : c = .empty ∨ c = .full := by cases c <;> simp
    refine (h.rouse c u).hold (fun k e => ?_) (fun ha => ?_) (fun ha => hC (rouse_asleep_nonempty ha)) fun ha => ?_
    · cases e
      exact pre_of_signal hc hl
    · have h1 := hE (rouse_asleep_nonempty ha)
      have h2 := rouse_woken_le (v := v) c .empty u
      rcases hc' with rfl | rfl <;> simp at h1 <;> simp only [rouse_queue] <;> omega
    · have h1 := hF (rouse_asleep_nonempty ha)
      have h2 := rouse_woken_le (v := v) c .full u
      rcases hc' with rfl | rfl <;> simp only [reduceCtorEq, if_false, if_true] at h1 <;>
        simp only [rouse_queue] <;> omega
  | @signalNone l l' c hc hh hl hu =>
    have hC := h.not_closed hh (by rw [hc]; simp)
    have hnot : ∀ c', (v.asleep c').Nonempty → c ≠ c' := by
      rintro c' ha rfl
      rw [hu] at ha
      exact Finset.not_nonempty_empty ha
    have ho : ∀ c', (v.asleep c').Nonempty → v.owed c' = 0 := fun c' ha => by simp [owed_eq hh, hc, hnot c' ha]
    refine h.hold (fun k e => ?_) (fun ha => ?_) hC fun ha => ?_
    · cases e
      exact pre_of_signal hc hl
    · have := h.empty ha
      rwa [ho _ ha] at this
    · have := h.full ha
      rwa [ho _ ha] at this
  | @broadcast l l' c hc hh hl =>
    have ho : ∀ c', v.owed c' = 0 := fun c' => by simp [owed_eq hh, hc]
    cases l with
    | closeBroadcast =>
      cases hc
      cases hl
      refine ⟨h.wf, h.elementSize, fun _ e => by cases e; trivial, fun ha => ?_, fun ha => ?_, fun ha => ?_⟩
      · simp at ha
      · simp at ha
      · have hF := h.full (by simpa using ha)
        rw [ho] at hF
        exact hF.trans (Nat.le_add_right _ _)
    | _ => simp [QLoc.prim] at hc
  | @release l hc hh =>
    have ho : ∀ c', v.owed c' = 0 := fun c' => by simp [owed_eq hh, hc]
    refine h.hold (fun k e => by cases e) (fun ha => ?_) (h.not_closed hh (by rw [hc]; simp)) fun ha => ?_
    · have := h.empty ha
      rwa [ho] at this
    · have := h.full ha
      rwa [ho] at this
  | spurious hu hn => exact h.rouse _ _

end

end Monitor

end MrLib
