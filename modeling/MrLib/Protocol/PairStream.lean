import Mathlib.Data.Fintype.Basic
import MrLib.Emit
import MrLib.Protocol.Receive

/-!
# The stream of pairs

Any number of mapper workers call `mapper_emit`, each on a sequence of pairs of its own; the reducer calls
`receive_pair_from_mapper_fd` on what they have written until it returns something other than 0. The pipe between them
is a reliable byte stream that cuts the writes and the reads as it likes.

`pair_stream_round_trip`: the reducer receives a shuffle of the sequences, every pair as it was emitted, and then the
end of the stream; both sides have counted the same number of pairs.
-/

namespace MrLib

open Conc

variable {T : Type} [DecidableEq T]

/-! ## The workers -/

/-- The next emit of a worker that has these pairs left. -/
def emitNext : List Msg → Next UInt8 0 (List Msg)
  | [] => .done 0
  | m :: ms => .emit m ms

/-- A worker that emits one pair after the other; the frame is what it has left. -/
def emitter (T : Type) : Client T UInt8 0 Unit (List Msg) where
  call _ := .sys .choose
  back _ ms _ x := (emitNext ms, x)
  entry _ := .done 0

/-- The workers, `t` emitting `ms t`. -/
def emitters (ms : T → List Msg) : Lts (PState T UInt8 0 Unit (List Msg)) (Act T Val) where
  init := {
    loc := fun t => (emitNext (ms t)).enter
    owner := fun _ => none
    asleep := fun _ => ∅
    woken := fun _ => ∅
    mem := ⟨mrQueueInit [] 0 0, ⟨[], 0⟩, ()⟩ }
  step := (runtime (emitter T)).step

/-- The pairs of a thread among those of all threads. -/
def pairsOf (t : T) (log : List (T × Msg)) : List Msg := (log.filter fun x => x.1 = t).map Prod.snd

/-- `log` is a shuffle of the sequences `ms t`: every thread's pairs are in it once, in the thread's order. -/
def Shuffle (ms : T → List Msg) (log : List (T × Msg)) : Prop := ∀ t, pairsOf t log = ms t

/-- What a worker has still to write. -/
inductive Todo : TLoc UInt8 0 (List Msg) → List Msg → Prop
  | done (c : Int) : Todo (.done c) []
  | lock (m : Msg) (ms : List Msg) : Todo (.emit m .lock ms) (m :: ms)
  | write (m : Msg) (c : Bytes) (cs : List Bytes) (ms : List Msg) : Todo (.emit m (.write c cs) ms) (m :: ms)
  | unlock (m : Msg) (ms : List Msg) : Todo (.emit m (.unlock 0) ms) ms

theorem todo_emitNext (ms : List Msg) : Todo (emitNext ms).enter ms := by
  cases ms with
  | nil => exact .done 0
  | cons m ms => exact .lock m ms

theorem pairsOf_append (t : T) (log log' : List (T × Msg)) :
    pairsOf t (log ++ log') = pairsOf t log ++ pairsOf t log' := by
  simp [pairsOf]

theorem pairsOf_singleton (t u : T) (m : Msg) : pairsOf t [(u, m)] = if u = t then [m] else [] := by
  by_cases h : u = t <;> simp [pairsOf, h]

/-- The message that is committed in a step is not one of the other threads. -/
theorem pairsOf_others {β μ F : Type} {es : Nat} {s : PState T β es μ F} {a : Act T Val} {t u : T} {r : Ret Val}
    (ha : a.returns t r) (hu : u ≠ t) : pairsOf u (committed s a).toList = [] := by
  cases hc : committed s a with
  | none => rfl
  | some x =>
    have hv : x.1 = t := committed_thread ha hc
    simp [pairsOf, hv, Ne.symm hu]

/-- The state of the workers: what they have written, and what each has left. -/
structure Emitting (ms : T → List Msg) (s : PState T UInt8 0 Unit (List Msg)) (log : List (T × Msg)) : Prop where
  waits : Waits (runtime (emitter T)) s
  mutex : Mutual .stdout TLoc.inEmit s
  framed : Framed s log
  todo : ∀ t, ∃ rest, Todo (s.loc t) rest ∧ pairsOf t log ++ rest = ms t

/-- Where a worker goes, and what it has left then. -/
theorem todo_next {l : TLoc UInt8 0 (List Msg)} {rest : List Msg} (h : Todo l rest) {s : PState T UInt8 0 Unit (List Msg)}
    {t : T} {a : Act T Val} (hl : s.loc t = l) {r : Ret Val} (hok : emitsOk (emitter T) s a = true)
    (ha : a.returns t r) (hr : (runtime (emitter T)).Answers s t r) (hx : (runtime (emitter T)).Direct s a t r) :
    ∃ rest', Todo ((runtime (emitter T)).next t l r s.mem).1 rest' ∧
      pairsOf t (committed s a).toList ++ rest' = rest := by
  have hnf : r ≠ .fail := ha.ne_fail (by simp only [emitsOk, Bool.and_eq_true] at hok; exact hok.1)
  simp only [Code.Answers] at hr
  rw [hl] at hr
  cases h with
  | done c => exact hr.elim
  | lock m ms =>
    obtain rfl := hr.resolve_right hnf
    rw [committed_ok ha]
    exact ⟨_, .write m _ _ ms, rfl⟩
  | unlock m _ =>
    obtain rfl := hr.resolve_right hnf
    rw [committed_ok ha]
    exact ⟨rest, todo_emitNext rest, rfl⟩
  | write m c cs ms =>
    have hcall : (runtime (emitter T)).call (s.loc t) = .ext (.write stdoutFileno c) := by rw [hl]; rfl
    obtain rfl := hx _ hcall
    obtain ⟨k, rfl⟩ : ∃ k, r = .val (.count k) := by
      simp only [emitsOk, hcall, Bool.and_eq_true] at hok
      rcases r with _ | _ | _ | v
      · simp at hok
      · simp at hok
      · simp at hok
      · cases v with
        | count k => exact ⟨k, rfl⟩
        | _ => simp at hok
    by_cases hc : c.length ≤ k
    · cases cs with
      | nil =>
        simp only [runtime, TLoc.next, EmitLoc.next, hc, if_true, EmitLoc.send, committed, hl, Option.toList_some,
          pairsOf_singleton]
        exact ⟨ms, .unlock m ms, rfl⟩
      | cons c' cs' =>
        simp only [runtime, TLoc.next, EmitLoc.next, hc, if_true, EmitLoc.send, committed, hl, Option.toList_none]
        exact ⟨m :: ms, .write m _ _ ms, rfl⟩
    · rw [committed_short hl hc]
      simp only [runtime, TLoc.next, EmitLoc.next, hc, if_false]
      exact ⟨m :: ms, .write m _ _ ms, rfl⟩

variable {ms : T → List Msg} {s s' : PState T UInt8 0 Unit (List Msg)} {log : List (T × Msg)} {a : Act T Val}

/-- **The step lemma of the workers.** -/
theorem Emitting.step (h : Emitting ms s log) (hs : (runtime (emitter T)).step s a = some s')
    (hok : emitsOk (emitter T) s a = true) : Emitting ms s' (log ++ (committed s a).toList) := by
  have ht := Code.trans_of_step hs
  have hsync : (runtime (emitter T)).syncOk s a = true := by
    simp only [emitsOk, Bool.and_eq_true] at hok
    exact Code.syncOk_of_ok _ _ hok.1
  refine ⟨h.waits.step ht, (runtime_guarded_stdout _).mutual h.waits h.mutex ht hsync,
    h.framed.step h.waits h.mutex ht hok, fun u => ?_⟩
  obtain ⟨rest, hrest, hu⟩ := h.todo u
  cases ht.move with
  | stay ha hl _ =>
    rw [committed_of_no_return ha, hl, Option.toList_none, List.append_nil]
    exact ⟨rest, hrest, hu⟩
  | create t v _ hc _ _ _ =>
    obtain ⟨r, hr, -⟩ := h.todo t
    generalize s.loc t = l at hr hc
    cases hr <;> cases hc
  | call t r hr ha hx hl hm =>
    rw [pairsOf_append, hl]
    by_cases hut : u = t
    · subst hut
      obtain ⟨rest', hr', he⟩ := todo_next hrest rfl hok ha hr hx
      rw [Function.update_self]
      exact ⟨rest', hr', by rw [List.append_assoc, he, hu]⟩
    · rw [Function.update_of_ne hut]
      have hnil : pairsOf u (committed s a).toList = [] := by
        cases hc : committed s a with
        | none => rfl
        | some x =>
          obtain ⟨v, m⟩ := x
          have hv : v = t := committed_thread ha hc
          simp [pairsOf_singleton, hv, Ne.symm hut]
      exact ⟨rest, hrest, by rw [hnil, List.append_nil, hu]⟩

/-- **The run lemma of the workers.** -/
theorem emitters_inv (h : Reach (emitters ms) (fun s a => emitsOk (emitter T) s a = true) s) :
    ∃ log, Emitting ms s log := by
  refine h.inv (I := fun s => ∃ log, Emitting ms s log) ⟨[], ?_⟩ ?_
  · refine ⟨⟨fun c t ht => by simp [emitters] at ht, fun c t ht => by simp [emitters] at ht⟩, fun t => ?_, ?_, fun t => ?_⟩
    · exact iff_of_false nofun fun hi => not_inEmit_enter _ hi.1
    · exact ⟨fun t m e f he => by rw [enter_emit he]; rfl, rfl, fun _ => rfl, nofun⟩
    · exact ⟨ms t, todo_emitNext _, rfl⟩
  · rintro s a s' ⟨log, hl⟩ hok hs
    exact ⟨_, hl.step hs hok⟩

/-! ## The reader -/

/-- At most `n` calls of `receive_pair_from_mapper_fd`, until one does not return 0: the pairs, and what the last call
returned. -/
def receivePairs (fd : Nat) : Nat → IoProg (List (Option Bytes × Bytes) × Int)
  | 0 => .ret ([], 0)
  | n + 1 => do
    match ← receivePairFromMapperFd fd with
    | .pair token value =>
      let (ps, res) ← receivePairs fd n
      return ((token, value) :: ps, res)
    | .eof => return ([], 1)
    | .failed => return ([], -1)

/-- What the receiver of a message has at `*out_token`, `*out_value` and `*out_value_size`. -/
def Msg.received (m : Msg) : Option Bytes × Bytes := (some (m.token.bytes ++ [0]), m.value.bytes)

omit [DecidableEq T] in
/-- **A sequence of messages is received as it was sent, and then the end of the stream.** -/
theorem receivePairs_wires (fd : Nat) : ∀ (log : List (T × Msg)) (n : Nat), log.length < n →
    (receivePairs fd n).Wp StreamEnv (fun r s' => r = (log.map fun x => x.2.received, 1) ∧ s' = []) (wires log)
  | _, 0, h => absurd h (Nat.not_lt_zero _)
  | [], n + 1, _ => by
    rw [receivePairs, Prog.wp_bind]
    refine (receivePair_eof fd).mono ?_
    rintro r s' ⟨rfl, rfl⟩
    exact ⟨rfl, rfl⟩
  | x :: log, n + 1, h => by
    have hw : wires (x :: log) = x.2.wire ++ wires log := rfl
    rw [receivePairs, Prog.wp_bind, hw]
    refine (receivePair_wire fd x.2 (wires log)).mono ?_
    rintro r s' ⟨rfl, rfl⟩
    simp only
    rw [Prog.wp_bind]
    refine (receivePairs_wires fd log n (Nat.lt_of_succ_lt_succ h)).mono ?_
    rintro r s' ⟨rfl, rfl⟩
    exact ⟨rfl, rfl⟩

/-! ## Both sides -/

/-- The thread function has returned. -/
def TLoc.isDone {β : Type} {es : Nat} {F : Type} : TLoc β es F → Bool
  | .done _ => true
  | _ => false

/-- **The workers together**: when they have returned, their output is a shuffle of their messages. -/
theorem emitters_done (h : Reach (emitters ms) (fun s a => emitsOk (emitter T) s a = true) s)
    (hd : ∀ t, (s.loc t).isDone = true) :
    ∃ log, Shuffle ms log ∧ s.mem.stdout.sent = log.length ∧ s.mem.stdout.out = wires log := by
  obtain ⟨log, hl⟩ := emitters_inv h
  have hfree : s.owner .stdout = none := by
    by_contra hne
    obtain ⟨t, ht⟩ := Option.ne_none_iff_exists'.mp hne
    obtain ⟨⟨m, e, f, he, -⟩, -⟩ := (hl.mutex t).mp ht
    have := hd t
    rw [he] at this
    cases this
  refine ⟨log, fun t => ?_, hl.framed.sent, hl.framed.free hfree⟩
  obtain ⟨rest, hr, he⟩ := hl.todo t
  have hdt := hd t
  generalize s.loc t = l at hr hdt
  cases hr with
  | done c => rwa [List.append_nil] at he
  | _ => cases hdt

/-- **The round trip of the pair stream.** When the workers have returned, every way of reading what they wrote
gives a shuffle of their pairs and then the end of the stream; there is one, and both sides count the same. -/
theorem pair_stream_round_trip (h : Reach (emitters ms) (fun s a => emitsOk (emitter T) s a = true) s)
    (hd : ∀ t, (s.loc t).isDone = true) :
    ∃ log, Shuffle ms log ∧ s.mem.stdout.sent = log.length ∧
      ∀ fd n, s.mem.stdout.sent < n →
        (∃ s' r, Prog.Runs StreamEnv s.mem.stdout.out (receivePairs fd n) s' r) ∧
        ∀ s' r, Prog.Runs StreamEnv s.mem.stdout.out (receivePairs fd n) s' r →
          r = (log.map fun x => x.2.received, 1) ∧ r.1.length = s.mem.stdout.sent ∧ s' = [] := by
  obtain ⟨log, hsh, hsent, hout⟩ := emitters_done h hd
  refine ⟨log, hsh, hsent, fun fd n hn => ?_⟩
  rw [hout]
  rw [hsent] at hn
  have hwp := receivePairs_wires fd log n hn
  obtain ⟨s', r, hr, -⟩ := hwp.ends
  refine ⟨⟨s', r, hr⟩, fun s' r hr => ?_⟩
  obtain ⟨rfl, rfl⟩ := hwp.run hr
  exact ⟨rfl, by simp [hsent], rfl⟩

/-- A pair with an empty value, and one with an empty token. -/
def twoPairs (t : Fin 2) : List Msg :=
  if t = 0 then [⟨.a, .empty⟩]
  else [⟨⟨[], by decide, by decide⟩, ⟨[1, 2], by decide⟩⟩]

/-- Two workers, their writes cut into parts. -/
def twoEmits : List (Act (Fin 2) Val) :=
  [.ret 1 .ok, .ret 1 (.val (.count 16)), .ret 1 (.val (.count 1)), .ret 1 (.val (.count 1)), .ret 1 .ok,
    .ret 0 .ok, .ret 0 (.val (.count 5)), .ret 0 (.val (.count 11)), .ret 0 (.val (.count 1)), .ret 0 .ok]

theorem pair_stream_round_trip_twoEmits :
    ∃ (s : PState (Fin 2) UInt8 0 Unit (List Msg)) (log : List (Fin 2 × Msg)),
      Reach (emitters twoPairs) (fun s a => emitsOk (emitter (Fin 2)) s a = true) s ∧
      Shuffle twoPairs log ∧ s.mem.stdout.sent = 2 ∧ log.length = 2 ∧
      ∃ s' r, Prog.Runs StreamEnv s.mem.stdout.out (receivePairs 0 3) s' r ∧
        r = (log.map fun x => x.2.received, 1) := by
  obtain ⟨s, hr, hd, hs⟩ := reach_of_runP (T := emitters twoPairs) (P := emitsOk (emitter (Fin 2)))
    (fun s => (∀ t, (s.loc t).isDone = true) ∧ s.mem.stdout.sent = 2) twoEmits (by decide)
  obtain ⟨log, hsh, hlen, hread⟩ := pair_stream_round_trip hr hd
  obtain ⟨⟨s', r, hrun⟩, hall⟩ := hread 0 3 (by rw [hs]; decide)
  exact ⟨s, log, hr, hsh, hs, hlen.symm.trans hs, s', r, hrun, (hall s' r hrun).1⟩

end MrLib
