import MrLib.Queue.System

/-!
# What a failing queue operation has done

`auditSystem` is the queue of any threads with accounts: for every operation under way, what it has made of the
elements so far and whether a call has failed in it after that (`Own`), and, for every operation that has returned, its
result and its account (`Finished`). Every call of the operations may fail at any time.

`all_or_nothing`: an operation that returns `-1` has left the elements as they were, exactly if neither its `cnd_signal`
nor the `mtx_unlock` after it has failed.
-/

namespace MrLib

open Conc
open Conc.BoundedStack (Op)

/-- The account of an operation. -/
structure Own where
  /-- The elements after each change it has made of them, in order. -/
  changes : List (List (List UInt8))
  /-- A call has failed after the queue was changed. -/
  slipped : Bool
  deriving DecidableEq

def Own.fresh : Own := ⟨[], false⟩

/-- An operation that has returned. -/
structure Finished (T : Type) where
  thread : T
  op : Op Bytes
  ret : QRet UInt8
  own : Own
  deriving DecidableEq

/-- An operation that returns `-1` has neither added nor removed an element: whatever became of the elements while it
ran, the operations of the other threads did it. -/
def Finished.AllOrNothing {T : Type} (f : Finished T) : Prop := f.ret.res = -1 → f.own.changes = []

instance {T : Type} (f : Finished T) : Decidable f.AllOrNothing := inferInstanceAs (Decidable (_ → _))

/-- The threads, their queue, and the accounts. -/
structure Audited (T : Type) (es : Nat) where
  state : QState T es
  own : T → Own
  log : List (Finished T)

variable {T : Type} {cap es : Nat} {block : List UInt8}

/-- The account after the queue `q` was changed to `q'`. -/
def Own.after (w : Own) (q q' : Queue UInt8) (slip : Bool) : Own where
  changes := w.changes ++ if q'.elems = q.elems then [] else [q'.elems]
  slipped := w.slipped || slip

/-- The calls after the queue was changed: `cnd_signal`, and the `mtx_unlock` that follows it. -/
def QLoc.late {β : Type} {es : Nat} : QLoc β es → Bool
  | .pushSignal | .pushUnlock | .popSignal _ | .popUnlock _ => true
  | _ => false

/-- The thread that acts. -/
def actor {V : Type} : Act T V → T
  | .ret t _ | .wake t _ | .sleep t | .spurious t => t

/-- A late call of a queue operation fails. -/
def slips (s : QState T es) (a : Act T Val) : Bool :=
  match a with
  | .ret t .fail =>
    match s.loc t with
    | .queue q _ => q.late
    | _ => false
  | _ => false

/-- The accounts after a step from `s` to `s'`. -/
def Audited.book [DecidableEq T] (x : Audited T es) (a : Act T Val) (s' : QState T es) : Audited T es :=
  let own := (x.own (actor a)).after x.state.mem.queue s'.mem.queue (slips x.state a)
  match s'.mem.user.drop x.state.mem.user.length with
  | [.ret t o r] => ⟨s', Function.update x.own (actor a) .fresh, x.log ++ [⟨t, o, r, own⟩]⟩
  | _ => ⟨s', Function.update x.own (actor a) own, x.log⟩

/-- The queue with accounts. -/
def auditSystem (T : Type) [DecidableEq T] (cap es : Nat) (block : List UInt8) : Lts (Audited T es) (Act T Val) where
  init := ⟨(queueSystem T cap es block).init, fun _ => .fresh, []⟩
  step x a := ((queueSystem T cap es block).step x.state a).map (x.book a)

/-! ## One operation -/

/-- The account of an operation at a call. -/
def AtQueue {β : Type} {es : Nat} : QLoc β es → Own → Prop
  | .pushSignal, w | .pushUnlock, w | .popSignal _, w | .popUnlock _, w => w.changes ≠ [] ∧ w.slipped = false
  | .pushFailed, w | .popFailed, w => w.changes = [] ↔ w.slipped = false
  | _, w => w = .fresh

/-- How the account of a finished operation relates to its result. -/
def Settled (w : Own) (r : QRet UInt8) : Prop := (r.res = -1 → w.changes = []) ↔ w.slipped = false

theorem after_same (w : Own) {q q' : Queue UInt8} (h : q'.elems = q.elems) (b : Bool) :
    w.after q q' b = { w with slipped := w.slipped || b } := by
  simp [Own.after, h]

/-- A change of `count` is a change of the elements. -/
theorem after_count {q q' : Queue UInt8} (h : q'.count ≠ q.count) :
    (Own.fresh.after q q' false).changes ≠ [] ∧ (Own.fresh.after q q' false).slipped = false := by
  have he : q'.elems ≠ q.elems := fun he => h (by rw [← Queue.length_elems, he, Queue.length_elems])
  simp [Own.after, Own.fresh, he]

/-- The test of a push, with room or without. -/
theorem pushTest_own (q : Queue UInt8) (x : Elem UInt8 es) :
    AtQueue (q.pushTest x).1 (Own.fresh.after q (q.pushTest x).2 false) := by
  unfold Queue.pushTest
  split
  · rw [after_same _ rfl]
    rfl
  · exact after_count (by simp)

theorem popTest_own (q : Queue UInt8) :
    AtQueue (q.popTest : QLoc UInt8 es × Queue UInt8).1
      (Own.fresh.after q (q.popTest : QLoc UInt8 es × Queue UInt8).2 false) := by
  unfold Queue.popTest
  split
  · split <;> rw [after_same _ rfl] <;> rfl
  · rename_i h0
    refine after_count ?_
    rw [Queue.take_count]
    omega

/-- A late call that fails: the queue was changed, and the operation will return `-1`. -/
theorem slipped_own {w : Own} (q : Queue UInt8) (h : w.changes ≠ []) :
    (w.after q q true).changes = [] ↔ (w.after q q true).slipped = false := by
  rw [after_same w rfl]
  simp only [Bool.or_true, Bool.true_eq_false, iff_false]
  exact h

/-- An operation that has changed nothing. -/
theorem fresh_settled (r : QRet UInt8) : Settled .fresh r := iff_of_true (fun _ => rfl) rfl

/-- The call fails. -/
def failed (r : Ret Val) : Bool :=
  match r with
  | .fail => true
  | _ => false

/-- **One call of an operation**, whatever it returns. -/
theorem next_own (q : Queue UInt8) {l : QLoc UInt8 es} {w : Own} (h : AtQueue l w) {r : Ret Val}
    (hr : r = .ok ∨ r = .fail) :
    match l.next q r with
    | (.inl l', q') => AtQueue l' (w.after q q' (l.late && failed r))
    | (.inr x, q') => Settled (w.after q q' (l.late && failed r)) x := by
  have hsame : w.after q q false = w := by rw [after_same w rfl, Bool.or_false]
  have hend : ∀ {x : QRet UInt8}, w = .fresh → Settled (w.after q q false) x := fun hw => by
    rw [hsame, hw]
    exact fresh_settled _
  have hfail : w = .fresh → ((w.after q q false).changes = [] ↔ (w.after q q false).slipped = false) := fun hw => by
    rw [hsame, hw]
    exact iff_of_true rfl rfl
  cases l with
  | pushLock x =>
    rcases hr with rfl | rfl
    · rw [show w = .fresh from h]
      exact pushTest_own q x
    · exact hend h
  | pushWait x =>
    rcases hr with rfl | rfl
    · rw [show w = .fresh from h]
      exact pushTest_own q x
    · exact hfail h
  | popLock =>
    rcases hr with rfl | rfl
    · rw [show w = .fresh from h]
      exact popTest_own q
    · exact hend h
  | popWait =>
    rcases hr with rfl | rfl
    · rw [show w = .fresh from h]
      exact popTest_own q
    · exact hfail h
  | pushSignal =>
    rcases hr with rfl | rfl
    · show AtQueue (.pushUnlock : QLoc UInt8 es) (w.after q q false)
      rw [hsame]
      exact h
    · exact slipped_own q h.1
  | popSignal y =>
    rcases hr with rfl | rfl
    · show AtQueue (.popUnlock y : QLoc UInt8 es) (w.after q q false)
      rw [hsame]
      exact h
    · exact slipped_own q h.1
  | pushUnlock =>
    rcases hr with rfl | rfl
    · show Settled (w.after q q false) ⟨0, []⟩
      rw [hsame]
      exact iff_of_true nofun h.2
    · exact (imp_iff_right rfl).trans (slipped_own q h.1)
  | popUnlock y =>
    rcases hr with rfl | rfl
    · show Settled (w.after q q false) ⟨0, y⟩
      rw [hsame]
      exact iff_of_true nofun h.2
    · exact (imp_iff_right rfl).trans (slipped_own q h.1)
  | pushFailed | popFailed =>
    have hx : Settled (w.after q q false) ⟨-1, []⟩ := by
      rw [hsame]
      exact (imp_iff_right rfl).trans h
    rcases hr with rfl | rfl <;> exact hx
  | popClosed => rcases hr with rfl | rfl <;> exact hend h
  | closeLock =>
    rcases hr with rfl | rfl
    · show (w.after q { q with closed := true } false) = .fresh
      rw [after_same w (by rfl), Bool.or_false]
      exact h
    · exact hend h
  | closeBroadcast =>
    rcases hr with rfl | rfl
    · exact hsame.trans h
    · exact hsame.trans h
  | closeUnlock | closeFailed => rcases hr with rfl | rfl <;> exact hend h

/-! ## All operations -/

/-- The account of a thread. -/
def OwnAt (l : TLoc UInt8 es (Option (Op Bytes))) (w : Own) : Prop :=
  match l with
  | .own none => w = .fresh
  | .queue q (some _) => AtQueue q w
  | _ => False

/-- The accounts are in order. -/
structure AuditInv (x : Audited T es) : Prop where
  own : ∀ t, OwnAt (x.state.loc t) (x.own t)
  log : ∀ f ∈ x.log, Settled f.own f.ret

variable {x : Audited T es} {s' : QState T es} {a : Act T Val} {t : T}

theorem actor_of_returns {r : Ret Val} (h : a.returns t r) : actor a = t := by
  rcases h with rfl | ⟨-, u, rfl⟩ | ⟨k, -, rfl⟩ <;> rfl

theorem slips_queue {r : Ret Val} (ha : a.returns t r) (hr : r = .ok ∨ r = .fail) {q : QLoc UInt8 es}
    {f : Option (Op Bytes)} {s : QState T es} (hl : s.loc t = .queue q f) : slips s a = (q.late && failed r) := by
  rcases hr with rfl | rfl
  · rcases ha with rfl | ⟨-, u, rfl⟩ | ⟨k, hk, -⟩
    · simp [slips, failed]
    · simp [slips, failed]
    · cases hk
  · rw [ha.fail]
    simp [slips, hl, failed]

/-- A thread chooses an operation, or does not. -/
theorem choose_loc (s : QState T es) (r : Ret Val) :
    ∃ l e, (runtime (queueUser T es)).next t (.own none) r s.mem = (l, { s.mem with user := s.mem.user ++ e }) ∧
      OwnAt l .fresh ∧ ∀ u o r, e ≠ [.ret u o r] := by
  have hstay : ∃ l e, ((.own none, s.mem) : TLoc UInt8 es (Option (Op Bytes)) × Mem UInt8 (List (QEvent T))) =
      (l, { s.mem with user := s.mem.user ++ e }) ∧ OwnAt l .fresh ∧ ∀ u o r, e ≠ [.ret u o r] :=
    ⟨.own none, [], by simp, rfl, by simp⟩
  cases r with
  | val v =>
    cases v with
    | op o =>
      cases o with
      | push d =>
        by_cases hd : d.length = es
        · refine ⟨.queue (.pushLock ⟨d, hd⟩) (some (.push d)), [.call t (.push d)], ?_, rfl, by simp⟩
          simp [runtime, TLoc.next, Client.resume, queueUser, hd, Next.enter]
        · have he : (runtime (queueUser T es)).next t (.own none) (.val (.op (.push d))) s.mem = (.own none, s.mem) := by
            simp [runtime, TLoc.next, Client.resume, queueUser, hd, Next.enter]
          rw [he]
          exact hstay
      | pop => exact ⟨.queue .popLock (some .pop), [.call t .pop], rfl, rfl, by simp⟩
      | close => exact ⟨.queue .closeLock (some .close), [.call t .close], rfl, rfl, by simp⟩
    | _ => exact hstay
  | _ => exact hstay

variable [DecidableEq T]

/-- No operation ends. -/
theorem book_more {w : Own} (hu : ∀ u o r, s'.mem.user.drop x.state.mem.user.length ≠ [.ret u o r])
    (hw : (x.own (actor a)).after x.state.mem.queue s'.mem.queue (slips x.state a) = w) :
    x.book a s' = ⟨s', Function.update x.own (actor a) w, x.log⟩ := by
  unfold Audited.book
  split
  · rename_i h
    exact absurd h (hu _ _ _)
  · rw [hw]

/-- An operation ends. -/
theorem book_ret {w : Own} {o : Op Bytes} {r : QRet UInt8}
    (hu : s'.mem.user = x.state.mem.user ++ [.ret t o r])
    (hw : (x.own (actor a)).after x.state.mem.queue s'.mem.queue (slips x.state a) = w) :
    x.book a s' = ⟨s', Function.update x.own (actor a) .fresh, x.log ++ [⟨t, o, r, w⟩]⟩ := by
  unfold Audited.book
  rw [hu, List.drop_left]
  simp only [hw]

/-- A thread has moved, and its account with it. -/
theorem AuditInv.move (h : AuditInv x) {l : TLoc UInt8 es (Option (Op Bytes))} {w : Own} {log : List (Finished T)}
    (hl : s'.loc = Function.update x.state.loc t l) (hw : OwnAt l w) (hlog : ∀ f ∈ log, Settled f.own f.ret) :
    AuditInv ⟨s', Function.update x.own t w, log⟩ where
  own u := by
    show OwnAt (s'.loc u) (Function.update x.own t w u)
    rw [hl]
    by_cases hu : u = t
    · subst hu
      rw [Function.update_self, Function.update_self]
      exact hw
    · rw [Function.update_of_ne hu, Function.update_of_ne hu]
      exact h.own u
  log := hlog

theorem AuditInv.step (h : AuditInv x) (hs : (queueSystem T cap es block).step x.state a = some s') :
    AuditInv (x.book a s') := by
  cases (Code.trans_of_step hs).move with
  | stay ha hl hm =>
    have hslip : slips x.state a = false := by
      unfold slips
      split
      · exact absurd rfl (ha _ _)
      · rfl
    rw [book_more (w := x.own (actor a)) (by simp [hm]) (by rw [hm, after_same _ rfl, hslip, Bool.or_false])]
    exact h.move (l := x.state.loc (actor a)) (by rw [hl, Function.update_eq_self]) (h.own _) h.log
  | call t r hr ha hx hl hm =>
    have hat := h.own t
    have hactor := actor_of_returns ha
    cases hloc : x.state.loc t with
    | own f =>
      rw [hloc] at hat hl hm
      cases f with
      | some o => exact hat.elim
      | none =>
        have hw : x.own t = .fresh := hat
        obtain ⟨l, e, hn, hl', he⟩ := choose_loc (t := t) x.state r
        rw [hn] at hl hm
        have hslip : slips x.state a = false := by
          unfold slips
          split
          · rename_i u
            rw [show u = t from hactor, hloc]
          · rfl
        rw [book_more (w := .fresh) (by simpa [hm] using he)
          (by rw [hactor, hm, after_same _ rfl, hslip, hw]; rfl), hactor]
        exact h.move hl hl' h.log
    | queue q f =>
      rw [hloc] at hat hl hm
      cases f with
      | none => exact hat.elim
      | some o =>
        have hr' : r = .ok ∨ r = .fail := by
          rw [Code.Answers, hloc] at hr
          cases q <;> exact hr
        have hn := next_own x.state.mem.queue hat hr'
        rw [← slips_queue ha hr' hloc] at hn
        simp only [runtime, TLoc.next] at hl hm
        split at hl <;> rename_i q' Q heq <;> rw [heq] at hn hm
        · rw [book_more (by simp [hm]) rfl, hactor]
          refine h.move hl ?_ h.log
          rw [hm]
          exact hn
        · rw [book_ret (t := t) (o := o) (r := q') (by rw [hm]; rfl) rfl, hactor]
          refine h.move hl rfl fun f hf => ?_
          rcases List.mem_append.mp hf with hf | hf
          · exact h.log f hf
          · rw [List.mem_singleton.mp hf, hm]
            exact hn
    | _ =>
      rw [hloc] at hat
      exact hat.elim
  | create t u ha hc hu hl hm =>
    have hat := h.own t
    cases hloc : x.state.loc t with
    | own f =>
      rw [hloc] at hc
      cases hc
    | queue q f =>
      rw [hloc] at hc
      cases q <;> cases hc
    | _ =>
      rw [hloc] at hat
      exact hat.elim

/-- **All or nothing.** In every run, whatever the calls return, an operation that has returned `-1` has left the elements
as they were, exactly if no call has failed in it after it had changed them. -/
theorem all_or_nothing {x : Audited T es} (h : Reach (auditSystem T cap es block) (fun _ _ => True) x) :
    ∀ f ∈ x.log, f.AllOrNothing ↔ f.own.slipped = false := by
  have hI : AuditInv x := by
    refine h.inv ⟨fun t => rfl, fun f hf => by cases hf⟩ ?_
    rintro x a x' hx - hs
    simp only [auditSystem, Option.map_eq_some_iff] at hs
    obtain ⟨s', hs', rfl⟩ := hs
    exact hx.step hs'
  exact hI.log

/-- The producer `t` has added its element and cannot signal; the consumer `u` gets the element. -/
def pushSlips {T : Type} (t u : T) : List (Act T Val) :=
  [.ret t (.val (.op (.push [7]))), .ret t .ok, .ret t .fail, .ret t .ok,
    .ret u (.val (.op .pop)), .ret u .ok, .ret u .ok, .ret u .ok]

theorem pushSlips_adds :
    ∃ x, Reach (auditSystem (Fin 2) 2 1 [0, 0]) (fun _ _ => True) x ∧
      ⟨0, .push [7], ⟨-1, []⟩, ⟨[[[7]]], true⟩⟩ ∈ x.log ∧ .ret 1 .pop ⟨0, [7]⟩ ∈ x.state.mem.user ∧
      ¬ ∀ f ∈ x.log, f.AllOrNothing := by
  obtain ⟨x, hr, hx⟩ := reach_of_runP (T := auditSystem (Fin 2) 2 1 [0, 0]) (P := fun _ _ => true)
    (fun x => ⟨0, .push [7], ⟨-1, []⟩, ⟨[[[7]]], true⟩⟩ ∈ x.log ∧ .ret 1 .pop ⟨0, [7]⟩ ∈ x.state.mem.user ∧
      ¬ ∀ f ∈ x.log, f.AllOrNothing) (pushSlips 0 1) (by decide)
  exact ⟨x, hr.mono fun _ _ _ => trivial, hx⟩

theorem all_or_nothing_pushSlips :
    ∃ x : Audited (Fin 2) 1, ⟨1, .pop, ⟨0, [7]⟩, ⟨[[]], false⟩⟩ ∈ x.log ∧
      ∀ f ∈ x.log, f.AllOrNothing ↔ f.own.slipped = false := by
  obtain ⟨x, hr, hx⟩ := reach_of_runP (T := auditSystem (Fin 2) 2 1 [0, 0]) (P := fun _ _ => true)
    (fun x => ⟨1, .pop, ⟨0, [7]⟩, ⟨[[]], false⟩⟩ ∈ x.log) (pushSlips 0 1) (by decide)
  exact ⟨x, hx, all_or_nothing (hr.mono fun _ _ _ => trivial)⟩

end MrLib
