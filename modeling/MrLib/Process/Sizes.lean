import MrLib.Core.Exact
import MrLib.Process.Calls
import MrLib.Queue.System

/-!
# The sizes that follow from the attributes

`mr_attr_check` bounds the attributes from below only, so the products that `mr_queue_init` and the two controllers pass
to `malloc` may wrap. The slots of the queue are looked at in every state that its threads reach (`AlwaysInBounds`), the
entries of `threads` and `t_args` in every run from the allocations on (`StaysInside`): a run that succeeds comes to the
first entry for which there is no memory (`reach_createWorkers`). `sizes_fit`: slots and entries lie inside the memory
that was allocated exactly if the products do not wrap.
-/

namespace MrLib

open Conc Prog
open Conc.BoundedStack (Op)

/-- `mr_attr_t` -/
structure MrAttr where
  mapperThreads : Nat
  reducerThreads : Nat
  queueSize : Nat
  logFile : Option Bytes
  mapperThreads_lt : mapperThreads < sizeT
  reducerThreads_lt : reducerThreads < sizeT
  queueSize_lt : queueSize < sizeT

def mrAttrCheckMapperThreads (n : Nat) : Bool := 1 ≤ n

def mrAttrCheckReducerThreads (n : Nat) : Bool := 1 ≤ n

def mrAttrCheckQueueSize (n : Nat) : Bool := 1 ≤ n

def mrAttrCheckLogFile (_ : Option Bytes) : Bool := true

/-- `mr_attr_check` -/
def mrAttrCheck (attr : MrAttr) : Bool :=
  mrAttrCheckMapperThreads attr.mapperThreads && mrAttrCheckReducerThreads attr.reducerThreads &&
    mrAttrCheckQueueSize attr.queueSize && mrAttrCheckLogFile attr.logFile

/-! ## The queue -/

/-- The next push and the next pop, if there is room or an element for them, address the bytes of their slot, and these
lie inside the buffer. -/
structure Queue.InBounds {β : Type} (q : Queue β) : Prop where
  push : q.count ≠ q.capacity →
    q.offset q.count = q.count * q.elementSize ∧ (q.count + 1) * q.elementSize ≤ q.buffer.length
  pop : q.count ≠ 0 →
    q.offset (q.count - 1) = (q.count - 1) * q.elementSize ∧ q.count * q.elementSize ≤ q.buffer.length

theorem Queue.WF.inBounds {β : Type} {q : Queue β} (h : q.WF) : q.InBounds where
  push hc := by
    have hle := h.le
    refine ⟨h.offset_eq hle, ?_⟩
    rw [h.length]
    exact Nat.mul_le_mul_right _ (by omega)
  pop _ := by
    have hle := h.le
    refine ⟨h.offset_eq (by omega), ?_⟩
    rw [h.length]
    exact Nat.mul_le_mul_right _ hle

section

variable {β V T μ F : Type} {es : Nat}

/-- The memory of the queue stays in order, whatever the calls return. -/
theorem next_wf {q : Queue β} (h : q.WF) (he : q.elementSize = es) (l : QLoc β es) (r : Ret V) :
    (l.next q r).2.WF ∧ (l.next q r).2.elementSize = es := by
  have hpush : ∀ x : Elem β es, (q.pushTest x).2.WF ∧ (q.pushTest x).2.elementSize = es := fun x => by
    unfold Queue.pushTest
    split
    · exact ⟨h, he⟩
    · have hle := h.le
      exact ⟨h.put (x.2.trans he.symm) (by omega), he⟩
  have hpop : (q.popTest : QLoc β es × Queue β).2.WF ∧ (q.popTest : QLoc β es × Queue β).2.elementSize = es := by
    unfold Queue.popTest
    split
    · split <;> exact ⟨h, he⟩
    · exact ⟨h.take, he⟩
  have hclose : ({ q with closed := true } : Queue β).WF := ⟨h.length, h.noWrap, h.le⟩
  cases l <;> cases r <;> first | exact ⟨h, he⟩ | exact hpush _ | exact hpop | exact ⟨hclose, he⟩

theorem runtime_wf (cl : Client T β es μ F) (t : T) (l : TLoc β es F) (r : Ret Val) {x : Mem β μ} (h : x.queue.WF)
    (he : x.queue.elementSize = es) :
    ((runtime cl).next t l r x).2.queue.WF ∧ ((runtime cl).next t l r x).2.queue.elementSize = es := by
  cases hl : l.queueLoc with
  | none =>
    rw [(next_outside cl hl t r x).1]
    exact ⟨h, he⟩
  | some q =>
    cases l with
    | queue q f =>
      have := next_wf h he q r
      simp only [runtime, TLoc.next]
      split <;> rename_i e <;> rw [e] at this <;> exact this
    | _ => cases hl

variable [DecidableEq T]

/-- **In every state reached, whatever the calls return, the queue is in order** if its size has not wrapped. -/
theorem queueSystem_wf {cap : Nat} {block : List UInt8} (hw : cap * es < sizeT)
    (hb : block.length = allocSize cap es) {P : QState T es → Act T Val → Prop} {s : QState T es}
    (h : Reach (queueSystem T cap es block) P s) : s.mem.queue.WF := by
  refine (h.inv (I := fun s => s.mem.queue.WF ∧ s.mem.queue.elementSize = es)
    ⟨Queue.mrQueueInit_wf hw hb, rfl⟩ ?_).1
  rintro s a s' ⟨hwf, he⟩ - hs
  cases (Code.trans_of_step hs).move with
  | stay _ _ hm => rw [hm]; exact ⟨hwf, he⟩
  | call t r _ _ _ _ hm => rw [hm]; exact runtime_wf _ t _ r hwf he
  | create t u _ _ _ _ hm => rw [hm]; exact runtime_wf _ t _ _ hwf he

/-- Between two operations, with nobody asleep and `n` elements in the queue. -/
structure Idle (cap n length : Nat) (s : QState T es) : Prop where
  loc : ∀ t, s.loc t = .own none
  owner : s.owner .queue = none
  asleep : s.asleep .empty = ∅
  capacity : s.mem.queue.capacity = cap
  elementSize : s.mem.queue.elementSize = es
  count : s.mem.queue.count = n
  length : s.mem.queue.buffer.length = length

variable (cap : Nat) (block : List UInt8) {n length : Nat} {s : QState T es} {t : T} {f : Option (Op Bytes)}

/-- What the steps of a push keep. -/
structure Moved (s s' : QState T es) (t : T) (l : TLoc UInt8 es (Option (Op Bytes))) : Prop where
  loc : s'.loc = Function.update s.loc t l
  asleep : s'.asleep = s.asleep

theorem Moved.at {s' : QState T es} {l : TLoc UInt8 es (Option (Op Bytes))} (h : Moved s s' t l) : s'.loc t = l := by
  rw [h.loc, Function.update_self]

/-- The thread calls `mr_queue_push`. -/
theorem step_choose (hl : s.loc t = .own none) {d : Bytes} (hd : d.length = es) :
    ∃ s', (queueSystem T cap es block).step s (.ret t (.val (.op (.push d)))) = some s' ∧
      Moved s s' t (.queue (.pushLock ⟨d, hd⟩) (some (.push d))) ∧ s'.owner = s.owner ∧ s'.mem.queue = s.mem.queue := by
  refine ⟨(runtime (queueUser T es)).advance s t (.val (.op (.push d))), ?_, ⟨?_, rfl⟩, rfl, ?_⟩
  · simp [queueSystem, Code.step, runtime, TLoc.call, hl, queueUser, OwnCall.call]
  · simp [Code.advance, runtime, TLoc.next, hl, Client.resume, queueUser, hd, Next.enter]
  · simp [Code.advance, runtime, TLoc.next, hl, Client.resume]

/-- It gets the mutex, and there is room. -/
theorem step_lock {x : Elem UInt8 es} (hl : s.loc t = .queue (.pushLock x) f) (ho : s.owner .queue = none)
    (hc : s.mem.queue.count ≠ s.mem.queue.capacity) :
    ∃ s', (queueSystem T cap es block).step s (.ret t .ok) = some s' ∧ Moved s s' t (.queue .pushSignal f) ∧
      s'.owner .queue = some t ∧ s'.mem.queue = s.mem.queue.put x.1 := by
  refine ⟨(runtime (queueUser T es)).advance (s.setOwner .queue (some t)) t .ok, ?_, ⟨?_, rfl⟩, ?_, ?_⟩
  · simp [queueSystem, Code.step, runtime, TLoc.call, hl, QLoc.prim, Prim.call, ho]
  · simp [Code.advance, State.setOwner, runtime, TLoc.next, hl, QLoc.next, Queue.pushTest, hc]
  · simp [Code.advance, State.setOwner]
  · simp [Code.advance, State.setOwner, runtime, TLoc.next, hl, QLoc.next, Queue.pushTest, hc]

/-- It signals, and nobody is there. -/
theorem step_signal (hl : s.loc t = .queue .pushSignal f) (ha : s.asleep .empty = ∅) :
    ∃ s', (queueSystem T cap es block).step s (.ret t .ok) = some s' ∧ Moved s s' t (.queue .pushUnlock f) ∧
      s'.owner = s.owner ∧ s'.mem.queue = s.mem.queue := by
  refine ⟨(runtime (queueUser T es)).advance s t .ok, ?_, ⟨?_, rfl⟩, rfl, ?_⟩
  · simp [queueSystem, Code.step, runtime, TLoc.call, hl, QLoc.prim, Prim.call, ha]
  · simp [Code.advance, runtime, TLoc.next, hl, QLoc.next]
  · simp [Code.advance, runtime, TLoc.next, hl, QLoc.next]

/-- It gives the mutex back, and `mr_queue_push` returns. -/
theorem step_unlock {o : Op Bytes} (hl : s.loc t = .queue .pushUnlock (some o)) (ho : s.owner .queue = some t) :
    ∃ s', (queueSystem T cap es block).step s (.ret t .ok) = some s' ∧ Moved s s' t (.own none) ∧
      s'.owner .queue = none ∧ s'.mem.queue = s.mem.queue := by
  refine ⟨(runtime (queueUser T es)).advance (s.setOwner .queue none) t .ok, ?_, ⟨?_, rfl⟩, ?_, ?_⟩
  · simp [queueSystem, Code.step, runtime, TLoc.call, hl, QLoc.prim, Prim.call, ho]
  · simp [Code.advance, State.setOwner, runtime, TLoc.next, hl, QLoc.next, Client.resume, queueUser, Next.enter]
  · simp [Code.advance, State.setOwner]
  · simp [Code.advance, State.setOwner, runtime, TLoc.next, hl, QLoc.next, Client.resume]

variable {cap block}

/-- One more element is pushed. -/
theorem Idle.push (h : Idle cap n length s) (hn : n < cap) (hb : (n + 1) * es ≤ length) (hl : length < sizeT) (t : T)
    (hr : Reach (queueSystem T cap es block) (fun _ a => a.ok = true) s) :
    ∃ s', Reach (queueSystem T cap es block) (fun _ a => a.ok = true) s' ∧ Idle cap (n + 1) length s' := by
  have hd : (List.replicate es (0 : UInt8)).length = es := List.length_replicate
  have hne : s.mem.queue.count ≠ s.mem.queue.capacity := by rw [h.count, h.capacity]; omega
  obtain ⟨s1, h1, k1, o1, q1⟩ := step_choose cap block (h.loc t) hd
  obtain ⟨s2, h2, k2, o2, q2⟩ := step_lock cap block k1.at (by rw [o1]; exact h.owner)
    (by rw [q1]; exact hne)
  obtain ⟨s3, h3, k3, o3, q3⟩ := step_signal cap block k2.at
    (by rw [k2.asleep, k1.asleep]; exact h.asleep)
  obtain ⟨s4, h4, k4, o4, q4⟩ := step_unlock cap block k3.at (by rw [o3]; exact o2)
  have hq : s4.mem.queue = s.mem.queue.put (List.replicate es 0) := by rw [q4, q3, q2, q1]
  refine ⟨s4, .step (.step (.step (.step hr rfl h1) rfl h2) rfl h3) rfl h4, ?_, o4, ?_, ?_, ?_, ?_, ?_⟩
  · intro u
    rw [k4.loc, k3.loc, k2.loc, k1.loc]
    simp only [Function.update_idem]
    by_cases hu : u = t
    · rw [hu, Function.update_self]
    · rw [Function.update_of_ne hu]
      exact h.loc u
  · rw [k4.asleep, k3.asleep, k2.asleep, k1.asleep]
    exact h.asleep
  · rw [hq]
    exact h.capacity
  · rw [hq]
    exact h.elementSize
  · rw [hq, Queue.put_count, h.count]
  · have hoff : s.mem.queue.offset s.mem.queue.count = n * es := by
      rw [Queue.offset, h.count, h.elementSize, Nat.mod_eq_of_lt]
      rw [Nat.add_mul, Nat.one_mul] at hb
      omega
    rw [Nat.add_mul, Nat.one_mul] at hb
    rw [hq, Queue.put, length_store, h.length]
    rw [hoff, hd, h.length]
    exact hb

variable (cap block)

/-- As many elements as fit in the memory can be pushed. -/
theorem reach_idle (t : T) (hl : block.length < sizeT) : ∀ n, n ≤ cap → n * es ≤ block.length →
    ∃ s : QState T es, Reach (queueSystem T cap es block) (fun _ a => a.ok = true) s ∧ Idle cap n block.length s
  | 0, _, _ => ⟨_, .init, fun _ => rfl, rfl, rfl, rfl, rfl, rfl, rfl⟩
  | n + 1, hn, hb => by
    have hle : n * es ≤ block.length := (Nat.mul_le_mul_right es (Nat.le_succ n)).trans hb
    obtain ⟨s, hr, hi⟩ := reach_idle t hl n (by omega) hle
    exact hi.push hn hb hl t hr

/-- A queue whose size has wrapped comes to address memory that was not allocated. -/
theorem reach_outside (t : T) (hes : 0 < es) (hb : block.length = allocSize cap es) (hw : sizeT ≤ cap * es) :
    ∃ s : QState T es, Reach (queueSystem T cap es block) (fun _ a => a.ok = true) s ∧ ¬ s.mem.queue.InBounds := by
  have hlt : block.length < sizeT := by
    rw [hb]
    exact Nat.mod_lt _ (by decide)
  -- the number of elements for which there is memory
  have hn := Nat.div_mul_le_self block.length es
  have hcap : block.length / es < cap := (Nat.div_lt_iff_lt_mul hes).mpr (by omega)
  obtain ⟨s, hr, hi⟩ := reach_idle cap block t hlt (block.length / es) (by omega) hn
  refine ⟨s, hr, fun hin => ?_⟩
  have hp := (hin.push (by rw [hi.count, hi.capacity]; omega)).2
  rw [hi.count, hi.elementSize, hi.length] at hp
  have hnext : block.length < (block.length / es + 1) * es := Nat.lt_mul_of_div_lt (Nat.lt_succ_self _) hes
  omega

end

/-! ## The threads -/

/-- Every answer that may come back to a thread. -/
def possible {ω : Type} (_ : Unit) (c : PCall ω) (r : PRet ω) (_ : Unit) : Prop :=
  c.Fits (fun e r => e.mayReturn (fun _ => .other) r = true) False r

/-- The entries `i` of `threads` and `t_args` lie in these blocks of memory. -/
structure EntryFits (threads tArgs : Bytes) (i : Nat) : Prop where
  thread : (i + 1) * sizeofThrd ≤ threads.length
  arg : (i + 1) * sizeofThreadArg ≤ tArgs.length

/-- The entries that fit are those that the start loop may write. -/
theorem entryFits_iff {threads tArgs : Bytes} {i : Nat} : EntryFits threads tArgs i ↔ i < threadSlots threads tArgs := by
  have h1 : (i + 1) * sizeofThrd ≤ threads.length ↔ i < threads.length / sizeofThrd :=
    (Nat.le_div_iff_mul_le (by decide)).symm
  have h2 : (i + 1) * sizeofThreadArg ≤ tArgs.length ↔ i < tArgs.length / sizeofThreadArg :=
    (Nat.le_div_iff_mul_le (by decide)).symm
  rw [threadSlots, lt_min_iff, ← h1, ← h2]
  exact ⟨fun h => ⟨h.thread, h.arg⟩, fun h => ⟨h.1, h.2⟩⟩

/-- A call that writes no entry outside the blocks. -/
structure PCall.Inside {ω : Type} (threads tArgs : Bytes) (c : PCall ω) : Prop where
  outside : ∀ i, c ≠ .io (.sys (.outside i))
  create : ∀ i, c = .create i → EntryFits threads tArgs i

/-- However far a run of `p` comes, it writes no entry outside the blocks. -/
def StaysInside {ω α : Type} (threads tArgs : Bytes) (p : ThreadProg ω α) : Prop :=
  ∀ c k, Reaches possible () p () (.call c k) → c.Inside threads tArgs

section

variable {ω α β : Type} {threads tArgs : Bytes}

/-- A call that writes no entry. -/
theorem not_create {c : PCall ω} (ho : ∀ i, c ≠ .io (.sys (.outside i))) (hc : ∀ i, c ≠ .create i) :
    c.Inside threads tArgs := ⟨ho, fun i h => absurd h (hc i)⟩

theorem common_inside : Common (PCall.Inside threads tArgs : PCall ω → Prop) (fun _ => True) where
  log _ _ := not_create (by simp) (by simp)
  stuck := not_create (by simp) (by simp)
  push _ := not_create (by simp) (by simp)
  pop := not_create (by simp) (by simp)
  close := not_create (by simp) (by simp)
  emit _ := not_create (by simp) (by simp)
  join _ := not_create (by simp) (by simp)
  share _ := not_create (by simp) (by simp)
  load _ := not_create (by simp) (by simp)
  called _ _ := not_create (by simp) (by simp)
  failed _ := not_create (by simp) (by simp)
  released _ := not_create (by simp) (by simp)
  left _ := not_create (by simp) (by simp)
  failure := trivial

theorem OnlyCalls.staysInside {K : Int → Prop} {f : Th ω α} (h : OnlyCalls (PCall.Inside threads tArgs) Any K f) :
    StaysInside threads tArgs f.run := fun _ _ hr => (Calls.reaches h hr).1

/-- **The start loop comes to the first entry that there is no memory for.** -/
theorem reach_createWorkers {slots : Nat} {failed : String} {cleanup : Th ω Unit} : ∀ todo i, i ≤ slots → slots < i + todo →
    ∃ k, Reaches possible () (createWorkers slots failed cleanup i todo).run () (.call (.io (.sys (.outside slots))) k)
  | 0, _, _, h => absurd h (by omega)
  | todo + 1, i, hi, h => by
    rw [createWorkers]
    rcases Nat.eq_or_lt_of_le hi with rfl | hlt
    · rw [if_pos (le_refl i)]
      have hfirst : ∀ rest : Th ω Unit, ∃ k, ((liftM (inThread (sysCall (.outside i)) : ThreadProg ω (Ret Val)) :
          Th ω (Ret Val)) >>= fun _ => rest).run = .call (.io (.sys (.outside i))) k := fun _ => run_io_call
      obtain ⟨k, hk⟩ := hfirst _
      exact ⟨k, hk ▸ .refl⟩
    · rw [if_neg (by omega)]
      obtain ⟨k, hk⟩ := reach_createWorkers todo (i + 1) hlt (by omega)
      -- the worker is created
      have hcreate : possible () (.create i : PCall ω) (.int 0) () := ⟨0, rfl, .inl rfl, fun h => by cases h⟩
      exact ⟨k, .call hcreate hk⟩

end

/-! ### The allocations -/

/-- `mapper_process_main` has come to the start loop, with these blocks of memory. -/
def MapperMemory (args : PoolArgs) (threads tArgs : Bytes) : Prop :=
  Runs possible () (mapperAllocate args).run () (.ok (threads, tArgs))

/-- `reducer_process_main` has come to the start loop, with these blocks of memory. -/
def ReducerMemory (args : PoolArgs) (tb : Table) (threads tArgs : Bytes) : Prop :=
  Runs possible () (reducerAllocate args tb).run () (.ok (threads, tArgs))

section

variable {ω α β : Type} {args : PoolArgs} {threads tArgs : Bytes}

/-- What `f` ends with are blocks of the sizes asked for. -/
def Allocates (args : PoolArgs) (f : Th ω (Bytes × Bytes)) : Prop :=
  ∀ threads tArgs, Runs possible () f.run () (.ok (threads, tArgs)) → args.Blocks threads tArgs

theorem allocates_bind {f : Th ω β} {k : β → Th ω (Bytes × Bytes)} (hk : ∀ b, Allocates args (k b)) :
    Allocates args (f >>= k) := by
  intro threads tArgs h
  change Runs possible () (f.run >>= ExceptT.bindCont k : ThreadProg ω (Except Int (Bytes × Bytes))) () _ at h
  obtain ⟨_, x, -, h⟩ := runs_bind.mp h
  cases x with
  | ok b => exact hk b threads tArgs h
  | error code => cases (runs_ret.mp h).2

theorem allocates_returns (code : Int) : Allocates args (returns code : Th ω (Bytes × Bytes)) := by
  intro threads tArgs h
  cases (runs_ret.mp h).2

/-- What `malloc` returns, before what follows it. -/
theorem allocates_malloc {n : Nat} {k : Option Bytes → Th ω (Bytes × Bytes)} (hnone : Allocates args (k none))
    (hsome : ∀ block : Bytes, block.length = n → Allocates args (k (some block))) :
    Allocates args ((liftM (inThread (malloc n) : ThreadProg ω (Option Bytes)) : Th ω (Option Bytes)) >>= k) := by
  intro threads tArgs h
  change Runs possible () ((inThread (malloc n) >>= fun b => Prog.ret (Except.ok b)) >>= ExceptT.bindCont k :
    ThreadProg ω (Except Int (Bytes × Bytes))) () _ at h
  rw [malloc, inThread] at h
  obtain ⟨_, _, ⟨r, rfl, hm⟩, h⟩ := runs_call.mp h
  rcases r with _ | _ | _ | v
  · exact hnone threads tArgs h
  · exact hnone threads tArgs h
  · exact hnone threads tArgs h
  · cases v with
    | bytes block =>
      simp only [Sys.mayReturn, decide_eq_true_eq] at hm
      exact hsome block hm.1 threads tArgs h
    | _ => exact hnone threads tArgs h

theorem allocates_pure {threads tArgs : Bytes} (h : args.Blocks threads tArgs) :
    Allocates args (pure (threads, tArgs) : Th ω (Bytes × Bytes)) := by
  intro threads' tArgs' hr
  cases (runs_ret.mp hr).2
  exact h

/-- The memory for `threads` and `t_args`, or the error path. -/
theorem allocates_blocks {failed : Th ω (Bytes × Bytes)} (hf : Allocates args failed) : Allocates args (do
    let threads ← mallocArray args.threads sizeofThrd
    let tArgs ← mallocArray args.threads sizeofThreadArg
    match threads, tArgs with
    | some threads, some tArgs => return (threads, tArgs)
    | _, _ => failed) := by
  refine allocates_malloc (allocates_bind fun tArgs => hf) fun threads h1 => ?_
  exact allocates_malloc hf fun tArgs h2 => allocates_pure ⟨h1, h2⟩

theorem allocates_mapper : Allocates args (mapperAllocate args) := by
  refine allocates_bind fun _ => allocates_bind fun _ => allocates_bind fun _ => allocates_bind fun _ => ?_
  refine allocates_bind fun _ => ?_
  split
  · refine allocates_bind fun _ => allocates_bind fun _ => allocates_blocks ?_
    exact allocates_bind fun _ => allocates_returns _
  · exact allocates_blocks (allocates_bind fun _ => allocates_returns _)

theorem allocates_reducer (tb : Table) : Allocates args (reducerAllocate args tb) := by
  refine allocates_bind fun _ => allocates_bind fun _ => allocates_bind fun _ => allocates_bind fun _ => ?_
  refine allocates_bind fun _ => ?_
  split
  · refine allocates_bind fun _ => allocates_bind fun _ => allocates_bind fun _ => allocates_blocks ?_
    exact allocates_bind fun _ => allocates_bind fun _ => allocates_returns _
  · exact allocates_blocks (allocates_bind fun _ => allocates_bind fun _ => allocates_returns _)

/-! ### The start loop -/

/-- Entries that there are for all threads. -/
theorem inside_of_slots {n : Nat} (hn : threadSlots threads tArgs = n) {j : Nat} (hj : j < n) :
    PCall.Inside threads tArgs (.create j : PCall ω) ∧
      (threadSlots threads tArgs ≤ j → PCall.Inside threads tArgs (.io (.sys (.outside j)) : PCall ω)) := by
  refine ⟨⟨by simp, fun i hi => ?_⟩, fun hle => absurd hj (by omega)⟩
  cases hi
  exact entryFits_iff.mpr (by omega)

theorem slots_lt (hb : args.Blocks threads tArgs) (hw : sizeT ≤ args.threads * sizeofThreadArg) :
    threadSlots threads tArgs < args.threads := by
  refine (min_le_right _ _).trans_lt ((Nat.div_lt_iff_lt_mul (by decide)).mpr ?_)
  rw [hb.tArgs]
  exact (Nat.mod_lt _ (by decide)).trans_le hw

/-- **The start loop stays inside the blocks** exactly if the size of `t_args` has not wrapped. -/
theorem staysInside_iff {start : Th ω α} {rest : Unit → Th ω α} {failed : String} {cleanup : Th ω Unit}
    (hb : args.Blocks threads tArgs)
    (hs : start = createWorkers (threadSlots threads tArgs) failed cleanup 0 args.threads >>= rest)
    (hc : (∀ j < args.threads, PCall.Inside threads tArgs (.create j : PCall ω) ∧
      (threadSlots threads tArgs ≤ j → PCall.Inside threads tArgs (.io (.sys (.outside j)) : PCall ω))) →
        OnlyCalls (PCall.Inside threads tArgs) Any (fun _ => True) start) :
    StaysInside threads tArgs start.run ↔ args.threads * sizeofThreadArg < sizeT := by
  constructor
  · intro hin
    by_contra hw
    have hlt := slots_lt hb (Nat.not_lt.mp hw)
    obtain ⟨k, hk⟩ := @reach_createWorkers ω (threadSlots threads tArgs) failed cleanup args.threads 0 (Nat.zero_le _)
      (by omega)
    rw [hs] at hin
    exact (hin _ _ hk.bind).outside _ rfl
  · intro hw
    exact (hc fun j hj => inside_of_slots (hb.slots hw) hj).staysInside

theorem mapperStart_inside (hm : MapperMemory args threads tArgs) :
    StaysInside threads tArgs (mapperStart args threads tArgs).run ↔ args.threads * sizeofThreadArg < sizeT := by
  have hs : mapperStart args threads tArgs = createWorkers (threadSlots threads tArgs)
      "Failed to create mapper worker thread %zu" (pure ()) 0 args.threads >>= fun _ =>
        pure (.receive mrMainReceiverInit) := rfl
  exact staysInside_iff (allocates_mapper _ _ hm) hs (onlyCalls_mapperStart _ _ _ common_inside trivial)

theorem reducerStart_inside {tb : Table} (hm : ReducerMemory args tb threads tArgs) :
    StaysInside threads tArgs (reducerStart args tb threads tArgs).run ↔ args.threads * sizeofThreadArg < sizeT := by
  obtain ⟨rest, hs⟩ : ∃ rest, reducerStart args tb threads tArgs = createWorkers (threadSlots threads tArgs)
      "Failed to create reducer worker thread %zu" (cleanupHashTable tb) 0 args.threads >>= rest := ⟨_, rfl⟩
  exact staysInside_iff (allocates_reducer tb _ _ hm) hs (onlyCalls_reducerStart _ _ _ tb common_inside trivial)

end

/-! ## The attributes -/

theorem mrAttrCheck_pos {attr : MrAttr} (h : mrAttrCheck attr = true) :
    1 ≤ attr.mapperThreads ∧ 1 ≤ attr.reducerThreads ∧ 1 ≤ attr.queueSize := by
  simp only [mrAttrCheck, mrAttrCheckMapperThreads, mrAttrCheckReducerThreads, mrAttrCheckQueueSize,
    mrAttrCheckLogFile, Bool.and_eq_true, decide_eq_true_eq, and_true] at h
  exact ⟨h.1.1, h.1.2, h.2⟩

/-- The arguments of `mapper_process_main`. -/
def MrAttr.mapperArgs (attr : MrAttr) (h : mrAttrCheck attr = true) : PoolArgs :=
  ⟨attr.mapperThreads, attr.queueSize, (mrAttrCheck_pos h).1, (mrAttrCheck_pos h).2.2, attr.mapperThreads_lt,
    attr.queueSize_lt⟩

/-- The arguments of `reducer_process_main`. -/
def MrAttr.reducerArgs (attr : MrAttr) (h : mrAttrCheck attr = true) : PoolArgs :=
  ⟨attr.reducerThreads, attr.queueSize, (mrAttrCheck_pos h).2.1, (mrAttrCheck_pos h).2.2, attr.reducerThreads_lt,
    attr.queueSize_lt⟩

/-- `mr_queue_init` has returned 0, with this block of memory. -/
def QueueMemory (capacity elementSize : Nat) (block : Bytes) : Prop :=
  ∃ ends τ, Runs (traced (answers ends)) [] (mrQueueInitCalls capacity elementSize) τ 0 ∧
    (.sys (.malloc (allocSize capacity elementSize)), .sys (.val (.bytes block))) ∈ τ

theorem QueueMemory.length {capacity elementSize : Nat} {block : Bytes} (h : QueueMemory capacity elementSize block) :
    block.length = allocSize capacity elementSize := by
  obtain ⟨ends, τ, hr, hm⟩ := h
  have hok := hr.answered (by simp) _ hm
  simp only [answers, Sys.mayReturn, decide_eq_true_eq] at hok
  exact hok.1

/-- In every state that any threads reach, the queue addresses its own memory. -/
def AlwaysInBounds (capacity elementSize : Nat) (block : Bytes) : Prop :=
  ∀ (T : Type) [DecidableEq T] (s : QState T elementSize),
    Reach (queueSystem T capacity elementSize block) (fun _ _ => True) s → s.mem.queue.InBounds

/-- **The sizes fit** exactly if their products do not wrap. -/
theorem sizes_fit (attr : MrAttr) (h : mrAttrCheck attr = true) :
    (∀ elementSize ∈ [sizeofFileLine, sizeofPtr], ∀ block, QueueMemory attr.queueSize elementSize block →
      (AlwaysInBounds attr.queueSize elementSize block ↔ attr.queueSize * elementSize < sizeT)) ∧
    (∀ threads tArgs, MapperMemory (attr.mapperArgs h) threads tArgs →
      (StaysInside threads tArgs (mapperStart (attr.mapperArgs h) threads tArgs).run ↔
        attr.mapperThreads * sizeofThreadArg < sizeT)) ∧
    (∀ tb threads tArgs, ReducerMemory (attr.reducerArgs h) tb threads tArgs →
      (StaysInside threads tArgs (reducerStart (attr.reducerArgs h) tb threads tArgs).run ↔
        attr.reducerThreads * sizeofThreadArg < sizeT)) := by
  refine ⟨fun es hes block hb => ⟨fun hin => ?_, fun hw T _ s hs => (queueSystem_wf hw hb.length hs).inBounds⟩, ?_, ?_⟩
  · have hpos : 0 < es := by
      simp only [List.mem_cons, List.not_mem_nil, or_false] at hes
      rcases hes with rfl | rfl <;> decide
    by_contra hw
    obtain ⟨s, hs, hn⟩ := reach_outside (T := Unit) attr.queueSize block () hpos hb.length (not_lt.mp hw)
    exact hn (hin Unit s (hs.mono fun _ _ _ => trivial))
  · exact fun threads tArgs hm => mapperStart_inside hm
  · exact fun tb threads tArgs hm => reducerStart_inside hm

/-- `mr_queue_init` can return 0 with any block of the size it asks for, up to `PTRDIFF_MAX` bytes. -/
theorem queueMemory_of_length {capacity elementSize : Nat} {block : Bytes}
    (hb : block.length = allocSize capacity elementSize) (hle : allocSize capacity elementSize ≤ ptrdiffMax) :
    QueueMemory capacity elementSize block := by
  have hok : answers (fun _ => .other) (.sys (.malloc (allocSize capacity elementSize))) (.sys (.val (.bytes block))) =
      true := by simp [answers, Sys.mayReturn, hb, hle]
  have hfeed : feed (answers fun _ => .other) (mrQueueInitCalls capacity elementSize)
      [.sys (.val (.bytes block)), .sys .ok, .sys .ok, .sys .ok] =
      some ([(.sys (.malloc (allocSize capacity elementSize)), .sys (.val (.bytes block))), (.sys .mtxInit, .sys .ok),
        (.sys .cndInit, .sys .ok), (.sys .cndInit, .sys .ok)], 0, []) := by
    simp only [mrQueueInitCalls, allocates, call_bind, feed, hok, if_true]
    rfl
  exact ⟨_, _, runs_of_feed hfeed, by simp⟩

/-- One thread in each process, and a queue of `2 ^ 61 + 1` elements: the product is `2 ^ 64 + 8` for pointers, and
`5 * 2 ^ 64 + 40` for lines. -/
def hugeQueue : MrAttr := ⟨1, 1, 2 ^ 61 + 1, none, one_lt_sizeT, one_lt_sizeT, by decide⟩

/-- The attributes are accepted, `mr_queue_init` returns 0 with memory for one line, and a second line is written
outside it. -/
theorem hugeQueue_outside : mrAttrCheck hugeQueue = true ∧
    ∃ block, QueueMemory hugeQueue.queueSize sizeofFileLine block ∧ block.length = 40 ∧
      ¬ AlwaysInBounds hugeQueue.queueSize sizeofFileLine block := by
  have hlen : (List.replicate 40 (0 : UInt8)).length = allocSize hugeQueue.queueSize sizeofFileLine := by decide
  refine ⟨by decide, List.replicate 40 0, queueMemory_of_length hlen (by decide), by decide, fun hin => ?_⟩
  obtain ⟨s, hs, hn⟩ := reach_outside (T := Unit) hugeQueue.queueSize _ () (by decide) hlen (by decide)
  exact hn (hin Unit s (hs.mono fun _ _ _ => trivial))

/-! ### Allocations that succeed -/

section

variable {ω α β : Type} {P : Except Int α → Unit → Prop}

/-- Every answer that may come back to sequential code. -/
def possibleIo (_ : Unit) (c : Io) (r : IoRet) (_ : Unit) : Prop :=
  match c, r with
  | .log _ _, .int _ => True
  | .sys e, .sys r => e.mayReturn (fun _ => .other) r = true
  | _, _ => False

theorem runs_inThread {p : IoProg β} {b : β} (h : Runs possibleIo () p () b) :
    Runs possible () (inThread p : ThreadProg ω β) () b := by
  induction p with
  | ret a =>
    obtain ⟨-, rfl⟩ := runs_ret.mp h
    exact .ret
  | call c k ih =>
    obtain ⟨r, _, he, h⟩ := runs_call.mp h
    rw [inThread, runs_call]
    cases c with
    | log level format =>
      cases r with
      | int n => exact ⟨.int n, (), ⟨n, rfl, fun h => by cases h⟩, ih _ h⟩
      | sys r => exact he.elim
    | writeN fd bs => exact he.elim
    | sys e =>
      cases r with
      | int n => exact he.elim
      | sys r => exact ⟨.sys r, (), ⟨r, rfl, he⟩, ih _ h⟩

theorem may_io {p : IoProg β} {k : β → Th ω α} (b : β) (h : Runs possibleIo () p () b) (hk : May possible (k b).run P ()) :
    May possible ((liftM (inThread p : ThreadProg ω β) : Th ω β) >>= k).run P () := by
  obtain ⟨_, x, hr, hx⟩ := hk
  refine ⟨(), x, ?_, hx⟩
  change Runs possible () ((inThread p >>= fun b => Prog.ret (Except.ok b)) >>= ExceptT.bindCont k : ThreadProg ω _) () x
  exact runs_bind.mpr ⟨(), .ok b, runs_bind.mpr ⟨(), b, runs_inThread h, .ret⟩, hr⟩

theorem runs_mrLog (level : Level) (format : String) : Runs possibleIo () (mrLog level format) () 0 :=
  runs_call.mpr ⟨.int 0, (), trivial, .ret⟩

theorem runs_allocates {e : Sys} {r : Ret Val} (hr : e.mayReturn (fun _ => .other) r = true) (hf : r ≠ .fail) :
    Runs possibleIo () (allocates e) () true := by
  refine runs_call.mpr ⟨.sys r, (), hr, ?_⟩
  cases r with
  | fail => exact absurd rfl hf
  | _ => exact .ret

theorem runs_malloc {n : Nat} {block : Bytes} (hb : block.length = n) (hn : n ≤ ptrdiffMax) :
    Runs possibleIo () (malloc n) () (some block) :=
  runs_call.mpr ⟨.sys (.val (.bytes block)), (), by simp [possibleIo, Sys.mayReturn, hb, hn], .ret⟩

theorem runs_mrQueueInitCalls {capacity elementSize : Nat} (hle : allocSize capacity elementSize ≤ ptrdiffMax) :
    Runs possibleIo () (mrQueueInitCalls capacity elementSize) () 0 := by
  have hqueue : Runs possibleIo () (allocates (.malloc (allocSize capacity elementSize))) () true :=
    runs_allocates (r := .val (.bytes (List.replicate (allocSize capacity elementSize) 0)))
      (by simp [Sys.mayReturn, hle]) (by simp)
  refine runs_bind.mpr ⟨(), true, hqueue, ?_⟩
  refine runs_bind.mpr ⟨(), true, runs_allocates (r := .ok) rfl (by simp), ?_⟩
  refine runs_bind.mpr ⟨(), true, runs_allocates (r := .ok) rfl (by simp), ?_⟩
  exact runs_bind.mpr ⟨(), true, runs_allocates (r := .ok) rfl (by simp), .ret⟩

variable {args : PoolArgs} {threads tArgs : Bytes}

/-- What is refused is only what no object can have. -/
structure PoolArgs.Grants (args : PoolArgs) (elementSize : Nat) : Prop where
  queue : allocSize args.queueSize elementSize ≤ ptrdiffMax
  threads : args.threads * sizeofThrd % sizeT ≤ ptrdiffMax
  tArgs : args.threads * sizeofThreadArg % sizeT ≤ ptrdiffMax

/-- The allocations of `mapper_process_main` can succeed with any blocks of the sizes it asks for. -/
theorem mapperMemory_of_blocks (hg : args.Grants sizeofFileLine) (hb : args.Blocks threads tArgs) :
    MapperMemory args threads tArgs := by
  have h : May possible (mapperAllocate args).run (fun x _ => x = .ok (threads, tArgs)) () := by
    refine may_io 0 (runs_mrLog _ _) ?_
    refine may_io 0 (runs_mrQueueInitCalls hg.queue) ?_
    refine may_io true (runs_allocates (r := .ok) rfl (by simp)) ?_
    refine may_io _ (runs_malloc hb.threads hg.threads) ?_
    exact may_io _ (runs_malloc hb.tArgs hg.tArgs) ⟨(), _, .ret, rfl⟩
  obtain ⟨_, x, hr, rfl⟩ := h
  exact hr

/-- And so can those of `reducer_process_main`. -/
theorem reducerMemory_of_blocks (tb : Table) (hg : args.Grants sizeofPtr) (hb : args.Blocks threads tArgs) :
    ReducerMemory args tb threads tArgs := by
  have h : May possible (reducerAllocate args tb).run (fun x _ => x = .ok (threads, tArgs)) () := by
    refine may_call .done () rfl (may_call .done () rfl ?_)
    refine may_io 0 (runs_mrQueueInitCalls hg.queue) ?_
    refine may_io true (runs_allocates (r := .ok) rfl (by simp)) ?_
    refine may_io _ (runs_malloc hb.threads hg.threads) ?_
    exact may_io _ (runs_malloc hb.tArgs hg.tArgs) ⟨(), _, .ret, rfl⟩
  obtain ⟨_, x, hr, rfl⟩ := h
  exact hr

end

/-- `2 ^ 61` threads in the mapper process: both arrays have a size that is a multiple of `2 ^ 64`. -/
def hugeThreads : MrAttr := ⟨2 ^ 61, 1, 1, none, by decide, one_lt_sizeT, one_lt_sizeT⟩

theorem hugeThreads_accepted : mrAttrCheck hugeThreads = true := by decide

/-- Both calls of `malloc` succeed with an empty block, and the start loop writes outside it. -/
theorem hugeThreads_outside : MapperMemory (hugeThreads.mapperArgs hugeThreads_accepted) [] [] ∧
    ¬ StaysInside [] [] (mapperStart (hugeThreads.mapperArgs hugeThreads_accepted) [] []).run := by
  have hm : MapperMemory (hugeThreads.mapperArgs hugeThreads_accepted) [] [] :=
    mapperMemory_of_blocks ⟨by decide, by decide, by decide⟩ ⟨by decide, by decide⟩
  refine ⟨hm, fun hin => ?_⟩
  have hw := (mapperStart_inside hm).mp hin
  exact absurd hw (by decide)

/-- Four threads in each process, and a queue of sixteen elements. -/
def smallQueue : MrAttr := ⟨4, 4, 16, none, by decide, by decide, by decide⟩

theorem smallQueue_accepted : mrAttrCheck smallQueue = true := by decide

theorem sizes_fit_small : mrAttrCheck smallQueue = true ∧
    (∃ block, QueueMemory 16 40 block ∧ AlwaysInBounds 16 40 block) ∧
    (∃ threads tArgs, MapperMemory (smallQueue.mapperArgs smallQueue_accepted) threads tArgs ∧
      StaysInside threads tArgs (mapperStart (smallQueue.mapperArgs smallQueue_accepted) threads tArgs).run) ∧
    ∃ threads tArgs, ReducerMemory (smallQueue.reducerArgs smallQueue_accepted) .empty threads tArgs ∧
      StaysInside threads tArgs (reducerStart (smallQueue.reducerArgs smallQueue_accepted) .empty threads tArgs).run := by
  have hmem : QueueMemory 16 40 (List.replicate 640 0) :=
    queueMemory_of_length (List.length_replicate.trans (by decide)) (by decide)
  obtain ⟨hq, hmapper, hreducer⟩ := sizes_fit smallQueue smallQueue_accepted
  have hblocks : ∀ args : PoolArgs, args.threads = 4 → args.Blocks (List.replicate 32 0) (List.replicate 320 0) := by
    intro args h4
    exact ⟨by rw [List.length_replicate, h4]; decide, by rw [List.length_replicate, h4]; decide⟩
  have hm := mapperMemory_of_blocks ⟨by decide, by decide, by decide⟩
    (hblocks (smallQueue.mapperArgs smallQueue_accepted) rfl)
  have hr := reducerMemory_of_blocks .empty ⟨by decide, by decide, by decide⟩
    (hblocks (smallQueue.reducerArgs smallQueue_accepted) rfl)
  refine ⟨smallQueue_accepted, ⟨_, hmem, (hq sizeofFileLine (by simp) _ hmem).mpr (by decide)⟩, ?_, ?_⟩
  · exact ⟨_, _, hm, (hmapper _ _ hm).mpr (by decide)⟩
  · exact ⟨_, _, hr, (hreducer _ _ _ hr).mpr (by decide)⟩

end MrLib
