import MrLib.Process.Accounts
import MrLib.Process.Mapper
import MrLib.Process.Reducer

/-!
# What the code of a process calls

`OnlyCalls P J K f`: every call that the piece `f` of a thread function may make satisfies `P`, what it goes on with
satisfies `J`, and every code with which it leaves the function `K`. The pieces of `mapper.c` and `reducer.c` are classified in three ways: the start of the
workers, by the entries of `threads` and `t_args` that it writes (`onlyCalls_mapperStart`, `onlyCalls_reducerStart`); what
neither reads nor receives (`PCall.labour`), which is all that a worker does; and all the code, by what it asks of the
system (`Sys.serving`). As the threads make the calls of their code only (`Trod.calls`), so does every state that a process
reaches (`serving_of_reach`).
-/

namespace MrLib

open Conc

variable {ω α β Φ : Type}

/-- How a piece may end: with a result that satisfies `J`, or by leaving its function with a code that satisfies `K`. -/
def Leaving (J : α → Prop) (K : Int → Prop) : Except Int α → Prop
  | .ok a => J a
  | .error code => K code

/-- Every call that `f` may make satisfies `P`, what it goes on with satisfies `J`, and the codes it returns `K`. -/
def OnlyCalls (P : PCall ω → Prop) (J : α → Prop) (K : Int → Prop) (f : Th ω α) : Prop := f.run.Calls P (Leaving J K)

/-- `P` says nothing about the calls that are not on the system, and `K` nothing about the end after a failure. -/
structure Common (P : PCall ω → Prop) (K : Int → Prop) : Prop where
  log : ∀ level format, P (.io (.log level format))
  stuck : P (.io (.sys .stuck))
  push : ∀ x, P (.push x)
  pop : P .pop
  close : P .close
  emit : ∀ m, P (.emit m)
  join : ∀ i, P (.join i)
  share : ∀ heap, P (.share heap)
  load : ∀ x, P (.load x)
  called : ∀ x e, P (.note (.called x e))
  failed : ∀ x, P (.note (.failed x))
  released : ∀ x, P (.note (.released x))
  left : ∀ r, P (.note (.left r))
  failure : K exitFailure

section Rules

variable {P : PCall ω → Prop} {J : α → Prop} {K : Int → Prop} {f : Th ω β} {k : β → Th ω α} {command : Th ω Unit}

theorem onlyCalls_pure {a : α} (ha : J a) : OnlyCalls P J K (pure a : Th ω α) := ha

theorem onlyCalls_returns {code : Int} (hk : K code) : OnlyCalls P J K (returns code : Th ω α) := hk

theorem OnlyCalls.bind (hf : OnlyCalls P Any K f) (hk : ∀ b, OnlyCalls P J K (k b)) : OnlyCalls P J K (f >>= k) := by
  change Prog.Calls P (Leaving J K) (f.run >>= _ : ThreadProg ω (Except Int α))
  refine Prog.Calls.bind hf fun x hx => ?_
  cases x with
  | ok b => exact hk b
  | error code => exact hx

theorem onlyCalls_call {c : PCall ω} {g : PRet ω → α} (hc : P c) : OnlyCalls P Any K (Th.call c g) := ⟨hc, fun _ => trivial⟩

theorem onlyCalls_syscallExitCheck (h : Common P K) (r : Int) (hc : OnlyCalls P Any K command) :
    OnlyCalls P Any K (syscallExitCheck r command) := by
  unfold syscallExitCheck
  split
  · exact hc.bind fun _ => onlyCalls_returns h.failure
  · exact onlyCalls_pure trivial

theorem calls_inThread {p : IoProg β} (hp : p.Calls (fun c => P (.io c)) Any) :
    (inThread p : ThreadProg ω β).Calls P Any := by
  induction p with
  | ret b => exact trivial
  | call c k ih =>
    rw [inThread]
    refine ⟨hp.1, fun r => ?_⟩
    dsimp only
    split
    · exact ih _ (hp.2 _)
    · exact ih _ (hp.2 _)
    · exact ih _ (hp.2 _)

/-- Sequential code. -/
theorem onlyCalls_io {p : IoProg β} (hp : p.Calls (fun c => P (.io c)) Any) :
    OnlyCalls P Any K (liftM (inThread p : ThreadProg ω β) : Th ω β) := by
  change Prog.Calls P (Leaving Any K) ((inThread p : ThreadProg ω β) >>= fun b => Prog.ret (Except.ok b))
  exact (calls_inThread hp).bind fun _ _ => trivial

end Rules

/-! ## What the two processes share -/

section Shared

variable {P : PCall ω → Prop} {K : Int → Prop} {cleanup : Th ω Unit}

theorem onlyCalls_mrLog (h : Common P K) (level : Level) (format : String) :
    OnlyCalls P Any K (liftM (inThread (mrLog level format) : ThreadProg ω Int) : Th ω Int) :=
  onlyCalls_io (calls_mrLog (h.log level format))

theorem onlyCalls_mrLogError (h : Common P K) (format : String) :
    OnlyCalls P Any K (liftM (inThread (mrLogError format) : ThreadProg ω Unit) : Th ω Unit) :=
  onlyCalls_io (calls_mrLogError (h.log .error format))

theorem onlyCalls_stuck (h : Common P K) :
    OnlyCalls P Any K (liftM (inThread (sysCall .stuck) : ThreadProg ω (Ret Val)) : Th ω (Ret Val)) :=
  onlyCalls_io (calls_sysCall h.stuck)

theorem onlyCalls_joinAll (h : Common P K) : ∀ todo j, OnlyCalls P Any K (joinAll j todo)
  | 0, _ => onlyCalls_pure trivial
  | todo + 1, j => (onlyCalls_call (h.join j)).bind fun _ => onlyCalls_joinAll h todo (j + 1)

/-- The workers are created one after the other. -/
theorem onlyCalls_createWorkers (h : Common P K) (hc : OnlyCalls P Any K cleanup) {slots : Nat} {failed : String} : ∀ todo i,
    (∀ j, i ≤ j → j < i + todo → P (.create j) ∧ (slots ≤ j → P (.io (.sys (.outside j))))) →
      OnlyCalls P Any K (createWorkers slots failed cleanup i todo)
  | 0, _, _ => onlyCalls_pure trivial
  | todo + 1, i, hi => by
    obtain ⟨hcreate, houtside⟩ := hi i (le_refl i) (by omega)
    have hrest : OnlyCalls P Any K (do
        if (← thrdCreate i) ≠ 0 then
          mrLogError failed
          let _ ← mrQueueClose
          joinAll 0 i
          cleanup
          returns exitFailure
        createWorkers slots failed cleanup (i + 1) todo : Th ω Unit) := by
      refine (onlyCalls_call hcreate).bind fun r => ?_
      have hnext : OnlyCalls P Any K (createWorkers slots failed cleanup (i + 1) todo) :=
        onlyCalls_createWorkers h hc todo (i + 1) fun j hj hlt => hi j (by omega) (by omega)
      dsimp only
      split
      · refine (onlyCalls_mrLogError h _).bind fun _ => (onlyCalls_call h.close).bind fun _ => ?_
        exact (onlyCalls_joinAll h i 0).bind fun _ => hc.bind fun _ => (onlyCalls_returns h.failure).bind fun _ => hnext
      · exact hnext
    rw [createWorkers]
    dsimp only
    split
    · exact (onlyCalls_io (calls_sysCall (houtside ‹_›))).bind fun _ => hrest
    · exact hrest

theorem onlyCalls_joinWorkers (h : Common P K) {failed exited : String} : ∀ todo i,
    OnlyCalls P Any K (joinWorkers failed exited i todo)
  | 0, _ => onlyCalls_pure trivial
  | todo + 1, i => by
    rw [joinWorkers]
    refine (onlyCalls_call (h.join i)).bind fun code => ?_
    cases code with
    | none => exact (onlyCalls_mrLogError h _).bind fun _ => onlyCalls_returns h.failure
    | some threadRes =>
      dsimp only
      split
      · exact (onlyCalls_mrLog h _ _).bind fun _ => onlyCalls_joinWorkers h todo (i + 1)
      · exact onlyCalls_joinWorkers h todo (i + 1)

theorem onlyCalls_callUser (h : Common P K) {e : Sys} (he : P (.io (.sys e))) : OnlyCalls P Any K (callUser e : Th ω Int) := by
  have user : ∀ u : User, (runUser u : ThreadProg ω Int).Calls P Any := by
    intro u
    induction u with
    | ret r => exact trivial
    | emit m k ih =>
      rw [runUser]
      refine ⟨h.emit m, fun r => ?_⟩
      dsimp only
      split
      · exact ih _
      · exact ih _
  change Prog.Calls P (Leaving Any K) (Prog.bind _ fun b => Prog.ret (Except.ok b))
  refine Prog.Calls.bind (show Prog.Calls P Any _ from ⟨he, fun r => ?_⟩) fun _ _ => trivial
  dsimp only
  split
  · exact user _
  · exact trivial

/-- What has failed leaves the function. -/
theorem onlyCalls_exits {J : α → Prop} (h : Common P K) {command : Th ω Unit} (hc : OnlyCalls P Any K command)
    {k : Unit → Th ω α} : OnlyCalls P J K (syscallExitCheck (-1) command >>= k) := by
  have hleaves : (syscallExitCheck (-1) command).run.Calls P fun x => ∃ code, x = .error code ∧ K code := by
    rw [syscallExitCheck, if_pos rfl]
    change Prog.Calls P _ (command.run >>= _ : ThreadProg ω (Except Int Unit))
    refine Prog.Calls.bind hc fun x hx => ?_
    cases x with
    | ok b => exact ⟨exitFailure, rfl, h.failure⟩
    | error code => exact ⟨code, rfl, hx⟩
  change Prog.Calls P (Leaving J K) ((syscallExitCheck (-1) command).run >>= _ : ThreadProg ω (Except Int α))
  refine hleaves.bind fun x hx => ?_
  obtain ⟨code, rfl, hk⟩ := hx
  exact hk

/-- `P` allows what the processes allocate before there are threads. -/
structure SetsUp (P : PCall ω → Prop) : Prop where
  malloc : ∀ n, P (.io (.sys (.malloc n)))
  mtxInit : P (.io (.sys .mtxInit))
  cndInit : P (.io (.sys .cndInit))

theorem onlyCalls_mrQueueInitCalls (h : SetsUp P) (capacity size : Nat) :
    OnlyCalls P Any K (liftM (inThread (mrQueueInitCalls capacity size) : ThreadProg ω Int) : Th ω Int) := by
  refine onlyCalls_io ?_
  refine Prog.Calls.bind (calls_allocates (h.malloc _)) fun _ _ => ?_
  split
  · exact trivial
  refine Prog.Calls.bind (calls_allocates h.mtxInit) fun _ _ => ?_
  split
  · exact trivial
  refine Prog.Calls.bind (calls_allocates h.cndInit) fun _ _ => ?_
  split
  · exact trivial
  refine Prog.Calls.bind (calls_allocates h.cndInit) fun _ _ => ?_
  split <;> exact trivial

/-- The memory for `threads` and `t_args`, or the error path. -/
theorem onlyCalls_blocks (h : SetsUp P) (args : PoolArgs) {failed : Th ω (Bytes × Bytes)} (hf : OnlyCalls P Any K failed) :
    OnlyCalls P Any K (do
      let threads ← mallocArray args.threads sizeofThrd
      let tArgs ← mallocArray args.threads sizeofThreadArg
      match threads, tArgs with
      | some threads, some tArgs => return (threads, tArgs)
      | _, _ => failed) := by
  refine (onlyCalls_io (calls_malloc (h.malloc _))).bind fun threads => ?_
  refine (onlyCalls_io (calls_malloc (h.malloc _))).bind fun tArgs => ?_
  split
  · exact onlyCalls_pure trivial
  · exact hf

end Shared

/-! ## The mapper -/

section Mapper

variable {P : PCall FileLine → Prop} {J : MapperPhase → Prop} {K : Int → Prop} (args : PoolArgs)

theorem onlyCalls_mapperAllocate (h : Common P K) (hset : SetsUp P) : OnlyCalls P Any K (mapperAllocate args) := by
  refine (onlyCalls_mrLog h _ _).bind fun r => (onlyCalls_syscallExitCheck h r (onlyCalls_pure trivial)).bind fun _ => ?_
  refine (onlyCalls_mrQueueInitCalls hset _ _).bind fun r => ?_
  refine (onlyCalls_syscallExitCheck h r (onlyCalls_mrLogError h _)).bind fun _ => ?_
  refine (onlyCalls_io (calls_allocates hset.mtxInit)).bind fun ok => ?_
  dsimp only
  split
  · refine (onlyCalls_mrLogError h _).bind fun _ => (onlyCalls_returns h.failure).bind fun _ => ?_
    exact onlyCalls_blocks hset args ((onlyCalls_mrLogError h _).bind fun _ => onlyCalls_returns h.failure)
  · exact onlyCalls_blocks hset args ((onlyCalls_mrLogError h _).bind fun _ => onlyCalls_returns h.failure)

/-- The start of the workers, in a run that has these blocks of memory. -/
theorem onlyCalls_mapperStart (threads tArgs : Bytes) (h : Common P K) (hJ : J (.receive mrMainReceiverInit))
    (hi : ∀ j < args.threads, P (.create j) ∧ (threadSlots threads tArgs ≤ j → P (.io (.sys (.outside j))))) :
    OnlyCalls P J K (mapperStart args threads tArgs) :=
  (onlyCalls_createWorkers h (onlyCalls_pure trivial) args.threads 0 fun j _ hj => hi j (by omega)).bind fun _ =>
    onlyCalls_pure hJ

theorem onlyCalls_mapperFinish (h : Common P K) (hs : K exitSuccess) (res : Int) :
    OnlyCalls P J K (mapperFinish args res) := by
  refine (onlyCalls_call h.close).bind fun r => ?_
  refine (onlyCalls_syscallExitCheck h r (onlyCalls_mrLogError h _)).bind fun _ => ?_
  refine (onlyCalls_joinWorkers h _ _).bind fun _ => ?_
  refine (onlyCalls_syscallExitCheck h res (onlyCalls_mrLogError h _)).bind fun _ => ?_
  refine (onlyCalls_mrLog h _ _).bind fun r => (onlyCalls_syscallExitCheck h r (onlyCalls_pure trivial)).bind fun _ => ?_
  exact onlyCalls_returns hs

/-- When the reception has failed, so has the process. -/
theorem onlyCalls_mapperFinish_failed (h : Common P K) : OnlyCalls P J K (mapperFinish args (-1)) := by
  refine (onlyCalls_call h.close).bind fun r => ?_
  refine (onlyCalls_syscallExitCheck h r (onlyCalls_mrLogError h _)).bind fun _ => ?_
  refine (onlyCalls_joinWorkers h _ _).bind fun _ => ?_
  exact onlyCalls_exits h (onlyCalls_mrLogError h _)

theorem onlyCalls_mapperWorker (h : Common P K) (hJ : J .work) : OnlyCalls P J K mapperWorker :=
  (onlyCalls_mrLog h _ _).bind fun r => (onlyCalls_syscallExitCheck h r (onlyCalls_pure trivial)).bind fun _ =>
    onlyCalls_pure hJ

theorem onlyCalls_mapperWork (h : Common P K) (hJ : J .work) (hs : K exitSuccess)
    (hu : ∀ l, P (.io (.sys (.mapper l)))) : OnlyCalls P J K mapperWork := by
  refine (onlyCalls_call h.pop).bind fun x => ?_
  split
  · refine (onlyCalls_call (h.called _ _)).bind fun _ => (onlyCalls_callUser h (hu _)).bind fun r => ?_
    refine (onlyCalls_syscallExitCheck h r ?_).bind fun _ => (onlyCalls_call (h.released _)).bind fun _ =>
      onlyCalls_pure hJ
    refine (onlyCalls_call (h.failed _)).bind fun _ => (onlyCalls_mrLogError h _).bind fun _ => ?_
    exact onlyCalls_call (h.released _)
  · exact (onlyCalls_stuck h).bind fun _ => onlyCalls_returns h.failure
  · refine (onlyCalls_call (h.left _)).bind fun _ => (onlyCalls_mrLog h _ _).bind fun r => ?_
    exact (onlyCalls_syscallExitCheck h r (onlyCalls_pure trivial)).bind fun _ => onlyCalls_returns hs

end Mapper

/-! ## The reducer -/

section Reducer

variable {P : PCall Ptr → Prop} {J : ReducerPhase → Prop} {K : Int → Prop} (args : PoolArgs)

theorem onlyCalls_astray {J : α → Prop} (h : Common P K) : OnlyCalls P J K (astray : Th Ptr α) :=
  (onlyCalls_stuck h).bind fun _ => onlyCalls_returns h.failure

theorem onlyCalls_cleanupTokenNode (h : Common P K) (p : Ptr) : OnlyCalls P Any K (cleanupTokenNode p) :=
  (onlyCalls_call (h.load p)).bind fun _ => onlyCalls_call (h.released _)

theorem onlyCalls_cleanupChain (h : Common P K) : ∀ fuel p, OnlyCalls P Any K (cleanupChain fuel p)
  | _, none => by
    rw [cleanupChain]
    exact onlyCalls_pure trivial
  | 0, some _ => onlyCalls_astray h
  | fuel + 1, some p => by
    rw [cleanupChain]
    refine (onlyCalls_call (h.load p)).bind fun node => ?_
    cases node with
    | none => exact onlyCalls_astray h
    | some node => exact (onlyCalls_cleanupTokenNode h p).bind fun _ => onlyCalls_cleanupChain h fuel node.next

theorem onlyCalls_cleanupBuckets (h : Common P K) (fuel : Nat) : ∀ hds, OnlyCalls P Any K (cleanupBuckets fuel hds)
  | [] => onlyCalls_pure trivial
  | hd :: hds => (onlyCalls_cleanupChain h fuel hd).bind fun _ => onlyCalls_cleanupBuckets h fuel hds

theorem onlyCalls_cleanupHashTable (h : Common P K) (tb : Table) : OnlyCalls P Any K (cleanupHashTable tb) :=
  onlyCalls_cleanupBuckets h _ _

theorem onlyCalls_pushChain (h : Common P K) (fuel : Nat) (hds : List (Option Ptr)) : ∀ n p,
    OnlyCalls P Any K (pushChain args fuel hds n p)
  | _, none => by
    rw [pushChain]
    exact onlyCalls_pure trivial
  | 0, some _ => onlyCalls_astray h
  | n + 1, some p => by
    rw [pushChain]
    refine (onlyCalls_call (h.load p)).bind fun node => ?_
    cases node with
    | none => exact onlyCalls_astray h
    | some node =>
      refine (onlyCalls_call (h.push p)).bind fun r => ?_
      refine (onlyCalls_syscallExitCheck h r ?_).bind fun _ => onlyCalls_pushChain h fuel hds n node.next
      refine (onlyCalls_mrLogError h _).bind fun _ => (onlyCalls_call h.close).bind fun _ => ?_
      refine (onlyCalls_joinAll h _ _).bind fun _ => (onlyCalls_cleanupTokenNode h p).bind fun _ => ?_
      exact (onlyCalls_cleanupChain h fuel _).bind fun _ => onlyCalls_cleanupBuckets h fuel hds

theorem onlyCalls_pushBuckets (h : Common P K) (fuel : Nat) : ∀ hds, OnlyCalls P Any K (pushBuckets args fuel hds)
  | [] => onlyCalls_pure trivial
  | hd :: hds => (onlyCalls_pushChain args h fuel hds fuel hd).bind fun _ => onlyCalls_pushBuckets h fuel hds

theorem onlyCalls_reducerAllocate (h : Common P K) (hset : SetsUp P) (hcame : ∀ xs, P (.note (.came xs))) (tb : Table) :
    OnlyCalls P Any K (reducerAllocate args tb) := by
  have hclean := onlyCalls_cleanupHashTable h tb
  have hfailed : OnlyCalls P Any K (do
      mrLogError "Failed to allocate memory for reducer threads"
      cleanupHashTable tb
      returns exitFailure : Th Ptr (Bytes × Bytes)) :=
    (onlyCalls_mrLogError h _).bind fun _ => hclean.bind fun _ => onlyCalls_returns h.failure
  refine (onlyCalls_call (h.share _)).bind fun _ => (onlyCalls_call (hcame _)).bind fun _ => ?_
  refine (onlyCalls_mrQueueInitCalls hset _ _).bind fun r => (onlyCalls_syscallExitCheck h r hclean).bind fun _ => ?_
  refine (onlyCalls_io (calls_allocates hset.mtxInit)).bind fun ok => ?_
  dsimp only
  split
  · refine (onlyCalls_mrLogError h _).bind fun _ => hclean.bind fun _ => ?_
    exact (onlyCalls_returns h.failure).bind fun _ => onlyCalls_blocks hset args hfailed
  · exact onlyCalls_blocks hset args hfailed

/-- The start of the workers, in a run that has these blocks of memory, and the rest. -/
theorem onlyCalls_reducerStart (threads tArgs : Bytes) (tb : Table) (h : Common P K) (hs : K exitSuccess)
    (hi : ∀ j < args.threads, P (.create j) ∧ (threadSlots threads tArgs ≤ j → P (.io (.sys (.outside j))))) :
    OnlyCalls P J K (reducerStart args tb threads tArgs) := by
  refine (onlyCalls_createWorkers h (onlyCalls_cleanupHashTable h tb) args.threads 0 fun j _ hj =>
    hi j (by omega)).bind fun _ => ?_
  refine (onlyCalls_pushBuckets args h _ _).bind fun _ => (onlyCalls_call h.close).bind fun r => ?_
  refine (onlyCalls_syscallExitCheck h r (onlyCalls_mrLogError h _)).bind fun _ => ?_
  refine (onlyCalls_joinWorkers h _ _).bind fun _ => (onlyCalls_mrLog h _ _).bind fun r => ?_
  exact (onlyCalls_syscallExitCheck h r (onlyCalls_pure trivial)).bind fun _ => onlyCalls_returns hs

theorem onlyCalls_reducerWorker (h : Common P K) (hJ : J .work) : OnlyCalls P J K reducerWorker :=
  (onlyCalls_mrLog h _ _).bind fun r => (onlyCalls_syscallExitCheck h r (onlyCalls_pure trivial)).bind fun _ =>
    onlyCalls_pure hJ

theorem onlyCalls_reducerWork (h : Common P K) (hJ : J .work) (hs : K exitSuccess)
    (hu : ∀ token values, P (.io (.sys (.reducer token values)))) : OnlyCalls P J K reducerWork := by
  have hrest : ∀ p, OnlyCalls P J K (do
      let _ ← load p
      note (.released p)
      return .work : Th Ptr ReducerPhase) := fun p =>
    (onlyCalls_call (h.load _)).bind fun _ => (onlyCalls_call (h.released _)).bind fun _ => onlyCalls_pure hJ
  refine (onlyCalls_call h.pop).bind fun x => ?_
  split
  · refine (onlyCalls_call (h.load _)).bind fun node => ?_
    cases node with
    | none => exact onlyCalls_astray h
    | some node =>
      refine (onlyCalls_call (h.called _ _)).bind fun _ => (onlyCalls_callUser h (hu _ _)).bind fun r => ?_
      dsimp only
      split
      · refine (onlyCalls_call (h.failed _)).bind fun _ => (onlyCalls_call (h.load _)).bind fun _ => ?_
        exact (onlyCalls_mrLogError h _).bind fun _ => hrest _
      · exact hrest _
  · exact onlyCalls_astray h
  · refine (onlyCalls_call (h.left _)).bind fun _ => (onlyCalls_mrLog h _ _).bind fun r => ?_
    exact (onlyCalls_syscallExitCheck h r (onlyCalls_pure trivial)).bind fun _ => onlyCalls_returns hs

/-! ### The table -/

section Table

variable {Q : Io → Prop}

/-- `Q` allows what it takes to add a pair to the table. -/
structure Stores (Q : Io → Prop) : Prop where
  log : ∀ level format, Q (.log level format)
  stuck : Q (.sys .stuck)
  malloc : ∀ n, Q (.sys (.malloc n))
  realloc : ∀ n, Q (.sys (.realloc n))

theorem calls_findOrCreateToken (h : Stores Q) (tb : Table) (token : Bytes) :
    (findOrCreateToken tb token).Calls Q Any := by
  unfold findOrCreateToken
  split
  · exact trivial
  · exact Prog.Calls.bind (calls_sysCall h.stuck) fun _ _ => trivial
  · refine Prog.Calls.bind (calls_allocates (h.malloc _)) fun _ _ => ?_
    split
    · refine Prog.Calls.bind (calls_allocates (h.malloc _)) fun _ _ => ?_
      split <;> exact trivial
    · exact trivial

theorem calls_addValueToToken (h : Stores Q) (node : Node) (value : Bytes) : (addValueToToken node value).Calls Q Any := by
  unfold addValueToToken
  split
  · refine Prog.Calls.bind (calls_allocates (h.realloc _)) fun _ _ => ?_
    split <;> exact trivial
  · exact trivial

theorem calls_collectPair (h : Stores Q) (tb : Table) (token : Option Bytes) (value : Bytes) :
    (collectPair tb token value).Calls Q Any := by
  have hlogged : ∀ format, (do mrLogError format; return none : IoProg (Option Table)).Calls Q Any := fun format =>
    Prog.Calls.bind (calls_mrLogError (h.log _ format)) fun _ _ => trivial
  unfold collectPair
  split
  · exact Prog.Calls.bind (calls_sysCall h.stuck) fun _ _ => trivial
  · refine Prog.Calls.bind (calls_findOrCreateToken h tb _) fun found _ => ?_
    rcases found with _ | ⟨p, tb⟩
    · exact hlogged _
    · dsimp only
      split
      · exact Prog.Calls.bind (calls_sysCall h.stuck) fun _ _ => trivial
      · refine Prog.Calls.bind (calls_addValueToToken h _ value) fun node _ => ?_
        cases node with
        | none => exact hlogged _
        | some node => exact trivial

end Table

end Reducer

/-! ## What the code asks of the system -/

/-- What the code of `mapper.c` and `reducer.c` asks of the system. -/
def Sys.serving : Sys → Bool
  | .log _ | .uninit _ | .stuck | .outside _ | .read _ _ | .write _ _ | .malloc _ | .realloc _ => true
  | .mtxInit | .cndInit | .mapper _ | .reducer _ _ => true
  | _ => false

def PCall.serving : PCall ω → Bool
  | .io (.sys e) => e.serving
  | _ => true

/-- A piece that asks for nothing else. -/
abbrev Serving (f : Th ω α) : Prop := OnlyCalls (fun c => c.serving = true) Any (fun _ => True) f

/-- Sequential code that asks for nothing else. -/
abbrev ServingIo (ω : Type) (p : IoProg α) : Prop := p.Calls (fun c => (PCall.io c : PCall ω).serving = true) Any

theorem common_serving : Common (fun c : PCall ω => c.serving = true) (fun _ => True) where
  log _ _ := rfl
  stuck := rfl
  push _ := rfl
  pop := rfl
  close := rfl
  emit _ := rfl
  join _ := rfl
  share _ := rfl
  load _ := rfl
  called _ _ := rfl
  failed _ := rfl
  released _ := rfl
  left _ := rfl
  failure := trivial

theorem stores_serving : Stores (fun c => (PCall.io c : PCall ω).serving = true) :=
  ⟨fun _ _ => rfl, rfl, fun _ => rfl, fun _ => rfl⟩

theorem setsUp_serving : SetsUp (fun c : PCall ω => c.serving = true) := ⟨fun _ => rfl, rfl, rfl⟩

section Serving

theorem serving_io {p : IoProg β} (hp : ServingIo ω p) : Serving (liftM (inThread p : ThreadProg ω β) : Th ω β) :=
  onlyCalls_io hp

theorem serving_logged (format : String) (a : α) : ServingIo ω (do mrLogError format; return a) :=
  Prog.Calls.bind (calls_mrLogError rfl) fun _ _ => trivial

theorem serving_receiveValue (fd n : Nat) : ServingIo ω (receiveValue fd n) := by
  refine Prog.Calls.bind (calls_malloc rfl) fun block _ => ?_
  cases block with
  | none =>
    dsimp only
    split
    · exact serving_logged _ _
    · exact trivial
  | some block =>
    dsimp only
    split
    · refine Prog.Calls.bind (calls_readN fun _ => rfl) fun bs _ => ?_
      cases bs with
      | none => exact serving_logged _ _
      | some bs => exact trivial
    · exact trivial

theorem serving_receiveToken (fd n : Nat) : ServingIo ω (receiveToken fd n) := by
  refine Prog.Calls.bind (calls_malloc rfl) fun block _ => ?_
  cases block with
  | none =>
    dsimp only
    split
    · exact serving_logged _ _
    · exact trivial
  | some block =>
    dsimp only
    split
    · refine Prog.Calls.bind (calls_readN fun _ => rfl) fun bs _ => ?_
      cases bs with
      | none => exact serving_logged _ _
      | some bs => exact trivial
    · exact trivial

theorem serving_receivePair (fd : Nat) : ServingIo ω (receivePairFromMapperFd fd) := by
  refine Prog.Calls.bind (calls_uninit rfl) fun junk _ => ?_
  refine Prog.Calls.bind (calls_readN fun _ => rfl) fun bs _ => ?_
  rcases bs with _ | _ | ⟨b, bs⟩
  · exact serving_logged _ _
  · exact trivial
  · refine (serving_receiveToken fd _).bind fun token _ => ?_
    cases token with
    | none => exact trivial
    | some token =>
      refine (serving_receiveValue fd _).bind fun value _ => ?_
      cases value <;> exact trivial

theorem serving_receiveLineContent (fd n : Nat) : ServingIo ω (receiveLineContent fd n) := by
  refine Prog.Calls.bind (calls_malloc rfl) fun block _ => ?_
  cases block with
  | none => exact serving_logged _ _
  | some block =>
    dsimp only
    split
    · refine Prog.Calls.bind (calls_readN fun _ => rfl) fun bs _ => ?_
      cases bs with
      | none => exact serving_logged _ _
      | some bs => exact trivial
    · exact trivial

theorem serving_receiveLineHeader (fd : Nat) (receiver : Receiver) : ServingIo ω (receiveLineHeader fd receiver) := by
  refine Prog.Calls.bind (calls_uninit rfl) fun junk _ => ?_
  refine Prog.Calls.bind (calls_readN fun _ => rfl) fun bs _ => ?_
  cases bs with
  | none => exact serving_logged _ _
  | some bs =>
    dsimp only
    split
    · exact trivial
    refine Prog.Calls.bind (calls_malloc rfl) fun block _ => ?_
    cases block with
    | none => exact serving_logged _ _
    | some block =>
      refine (serving_receiveLineContent fd _).bind fun line _ => ?_
      cases line <;> exact trivial

theorem serving_receiveLine (fd : Nat) (receiver : Receiver) : ServingIo ω (receiveLineFromMainFd fd receiver) := by
  unfold receiveLineFromMainFd
  split
  · refine Prog.Calls.bind (calls_uninit rfl) fun junk _ => ?_
    refine Prog.Calls.bind (calls_readN fun _ => rfl) fun bs _ => ?_
    rcases bs with _ | _ | ⟨b, bs⟩
    · exact serving_logged _ _
    · exact trivial
    · refine Prog.Calls.bind (calls_malloc rfl) fun block _ => ?_
      cases block with
      | none => exact serving_logged _ _
      | some block =>
        refine Prog.Calls.bind (calls_readN fun _ => rfl) fun name _ => ?_
        cases name with
        | none => exact serving_logged _ _
        | some name => exact serving_receiveLineHeader fd _
  · exact serving_receiveLineHeader fd receiver

variable (args : PoolArgs)

theorem serving_mapperProcessMain : Serving (mapperProcessMain args) :=
  (onlyCalls_mapperAllocate args common_serving setsUp_serving).bind fun x =>
    onlyCalls_mapperStart args x.1 x.2 common_serving trivial fun _ _ => ⟨rfl, fun _ => rfl⟩

theorem serving_mapperReceive (receiver : Receiver) : Serving (mapperReceive args receiver) := by
  have h := common_serving (ω := FileLine)
  refine (serving_io (serving_receiveLine _ receiver)).bind fun x => ?_
  cases x with
  | line line receiver =>
    have hcame : Serving (note (.came [line])) := onlyCalls_call rfl
    refine hcame.bind fun _ => (onlyCalls_call (h.push line)).bind fun r => ?_
    dsimp only
    split
    · refine (onlyCalls_mrLogError h _).bind fun _ => (onlyCalls_call (h.released _)).bind fun _ => ?_
      exact onlyCalls_pure trivial
    · exact onlyCalls_pure trivial
  | again receiver => exact onlyCalls_pure trivial
  | eof receiver => exact onlyCalls_mapperFinish args h trivial 1
  | failed => exact onlyCalls_mapperFinish args h trivial (-1)

theorem serving_reducerProcess (tb : Table) : Serving (reducerProcess args tb) :=
  (onlyCalls_reducerAllocate args common_serving setsUp_serving (fun _ => rfl) tb).bind fun x =>
    onlyCalls_reducerStart args x.1 x.2 tb common_serving trivial fun _ _ => ⟨rfl, fun _ => rfl⟩

theorem serving_reducerCollect (tb : Table) : Serving (reducerCollect args tb) := by
  have h := common_serving (ω := Ptr)
  have hfailed : Serving collectionFailed := (onlyCalls_mrLogError h _).bind fun _ => onlyCalls_returns h.failure
  refine (serving_io (serving_receivePair _)).bind fun x => ?_
  cases x with
  | pair token value =>
    have hpair : Serving (note (.pair (cstr (token.getD [])) value) : Th Ptr Unit) := onlyCalls_call rfl
    refine hpair.bind fun _ => (serving_io (calls_collectPair stores_serving tb token value)).bind fun r => ?_
    cases r with
    | none => exact hfailed
    | some tb => exact onlyCalls_pure trivial
  | eof => exact serving_reducerProcess args tb
  | failed => exact hfailed

theorem serving_reducerProcessMain : Serving reducerProcessMain :=
  (onlyCalls_mrLog common_serving _ _).bind fun r =>
    (onlyCalls_syscallExitCheck common_serving r (onlyCalls_pure trivial)).bind fun _ => onlyCalls_pure trivial

end Serving

/-! ### A process -/

/-- The code of a process asks for nothing else. -/
structure ProcessCode.Serves (C : ProcessCode ω Φ) : Prop where
  main : Serving C.main
  worker : Serving C.worker
  body : ∀ ph, Serving (C.body ph)
  /-- A worker makes a call before it reads or records anything. -/
  first : ∃ c k, C.worker.run = .call (.io c) k

theorem serves_mapperCode (args : PoolArgs) : (mapperCode args).Serves where
  main := serving_mapperProcessMain args
  worker := onlyCalls_mapperWorker common_serving trivial
  body ph := by
    cases ph with
    | receive receiver => exact serving_mapperReceive args receiver
    | work => exact onlyCalls_mapperWork common_serving trivial trivial fun _ => rfl
  first := ⟨_, run_io_call⟩

theorem serves_reducerCode (args : PoolArgs) : (reducerCode args).Serves where
  main := serving_reducerProcessMain
  worker := onlyCalls_reducerWorker common_serving trivial
  body ph := by
    cases ph with
    | collect tb => exact serving_reducerCollect args tb
    | work => exact onlyCalls_reducerWork common_serving trivial trivial fun _ _ => rfl
  first := ⟨_, run_io_call⟩

/-- **In every state that a process reaches** its threads ask the system for nothing else. -/
theorem serving_of_reach {C : ProcessCode ω Φ} (hC : C.Serves) {args : PoolArgs} {size : Nat} {stdin : Bytes}
    {Cond : Hosted ω Φ → Act Tid Val → Prop} {s : Hosted ω Φ} (h : Reach (C.system args size stdin) Cond s) {t : Tid}
    {e : Sys} (hcall : (runtime C.client).call (s.threads.loc t) = .ext e) : e.serving = true := by
  obtain ⟨τ, ht⟩ := traced_of_reach (fun _ _ => True) hC.first (fun _ _ _ _ => fun _ _ _ _ _ => trivial) h
  have hat := ht.trodden t
  have made : ∀ {c : PCall ω} {k}, C.Trod t (τ t) (.call c k) → c.serving = true := fun htr => by
    have any : ∀ {f : Th ω Φ}, Serving f → f.run.Calls (fun c => c.serving = true) (Prog.Onward Any) := fun hf =>
      hf.mono (fun _ h => h) fun _ _ _ _ => trivial
    refine (htr.calls ?_ fun ph _ => any (hC.body ph)).1.1
    cases t with
    | controller => exact any hC.main
    | worker i => exact any hC.worker
  cases hl : s.threads.loc t with
  | own f =>
    rw [hl] at hat hcall
    have hown : (f.own.call : Call Tid Mtx Cv Sys) = .ext e := hcall
    rcases hat with ⟨hst, -⟩ | ⟨htr, ⟨e', he⟩ | ⟨i, hi⟩ | ⟨i, hi⟩⟩
    · rw [hst] at hown
      cases hown
      rfl
    · simp only [PFrame.own, he, OwnCall.call, Call.ext.injEq] at hown
      subst hown
      have := made htr
      rw [he] at this
      exact this
    · simp [PFrame.own, hi, OwnCall.call] at hown
    · simp [PFrame.own, hi, OwnCall.call] at hown
  | log l f =>
    rw [hl] at hcall
    cases l <;> cases hcall <;> rfl
  | queue q f =>
    rw [hl] at hcall
    cases q <;> cases hcall
  | emit m e' f =>
    rw [hl] at hcall
    cases e' <;> cases hcall <;> rfl
  | absent => rw [hl] at hcall; cases hcall
  | done code => rw [hl] at hcall; cases hcall

end MrLib
