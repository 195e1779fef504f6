import MrLib.Process.Program

/-!
# The reducer process

`reducer_process_main` and `reducer_worker` of `reducer.c`, with `cleanup_token_node` and `cleanup_hash_table`. The
elements of the queue are pointers to the nodes of the hash table.
-/

namespace MrLib

open Conc

/-- `sizeof(token_node_t*)` -/
def sizeofPtr : Nat := 8

/-- The heads of the loops of `reducer.c`. -/
inductive ReducerPhase
  /-- At the collection loop of `reducer_process_main`. -/
  | collect (tb : Table)
  /-- At the loop of `reducer_worker`. -/
  | work

/-- A chain that does not end where the table says. -/
def astray {α : Type} : Th Ptr α := do
  let _ ← sysCall .stuck
  returns exitFailure

/-- The first `count` slots of `node->values`, as the user's function sees them. -/
def Node.arguments (node : Node) : List Bytes := (node.values.take node.count).map fun x => x.getD []

/-- `reducer_worker`, up to its loop. -/
def reducerWorker : Th Ptr ReducerPhase := do
  syscallExitCheck (← mrLogInfo "Reducer worker thread started") (pure ())
  return .work

/-- `reducer_worker`: one iteration of its loop, and what follows the loop. -/
def reducerWork : Th Ptr ReducerPhase := do
  match ← mrQueuePop with
  | (0, some p) =>
    match ← load p with
    | none => astray
    | some node =>
      note (.called p (.reducer node.token node.arguments))
      if (← callUser (.reducer node.token node.arguments)) ≠ 0 then
        note (.failed p)
        let _ ← load p
        mrLogError "User reducer function failed for token %s"
      let _ ← load p
      note (.released p)
      return .work
  | (0, none) => astray
  | (r, _) =>
    note (.left r)
    syscallExitCheck (← mrLogInfo "Reducer worker thread finished") (pure ())
    returns exitSuccess

/-! ## Cleaning up -/

/-- `cleanup_token_node` -/
def cleanupTokenNode (p : Ptr) : Th Ptr Unit := do
  let _ ← load p
  note (.released p)

/-- `while (node) { next = node->next; cleanup_token_node(node); node = next; }` -/
def cleanupChain : Nat → Option Ptr → Th Ptr Unit
  | _, none => pure ()
  | 0, some _ => astray
  | fuel + 1, some p => do
    match ← load p with
    | none => astray
    | some node =>
      cleanupTokenNode p
      cleanupChain fuel node.next

/-- The same for a number of buckets; `cleanup_hash_table` for all of them. -/
def cleanupBuckets (fuel : Nat) : List (Option Ptr) → Th Ptr Unit
  | [] => pure ()
  | hd :: hds => do
    cleanupChain fuel hd
    cleanupBuckets fuel hds

/-- `cleanup_hash_table` -/
def cleanupHashTable (tb : Table) : Th Ptr Unit := cleanupBuckets tb.heap.length tb.buckets

/-! ## The controller -/

/-- The `while` loop that pushes the nodes of a chain; `hds` are the buckets after it. -/
def pushChain (args : PoolArgs) (fuel : Nat) (hds : List (Option Ptr)) : Nat → Option Ptr → Th Ptr Unit
  | _, none => pure ()
  | 0, some _ => astray
  | n + 1, some p => do
    match ← load p with
    | none => astray
    | some node =>
      syscallExitCheck (← mrQueuePush p) do
        mrLogError "Failed to push token to queue"
        let _ ← mrQueueClose
        joinAll 0 args.threads
        cleanupTokenNode p
        cleanupChain fuel node.next
        cleanupBuckets fuel hds
      pushChain args fuel hds n node.next

/-- `for (int i = 0; i < MR_REDUCER_HASH_TABLE_SIZE; i++)`, the pushes. -/
def pushBuckets (args : PoolArgs) (fuel : Nat) : List (Option Ptr) → Th Ptr Unit
  | [] => pure ()
  | hd :: hds => do
    pushChain args fuel hds fuel hd
    pushBuckets args fuel hds

/-- The nodes of a chain, for the history. -/
def chainNodes (heap : List Node) : Nat → Option Ptr → List Ptr
  | 0, _ | _, none => []
  | fuel + 1, some p => p :: chainNodes heap fuel ((heap[p]?).bind Node.next)

/-- The nodes of the table, in the order of the buckets. -/
def Table.nodes (tb : Table) : List Ptr := tb.buckets.flatMap (chainNodes tb.heap tb.heap.length)

/-- `reducer_process_main`, from the end of the collection to the loop that creates the workers: the memory for `threads`
and `t_args`. -/
def reducerAllocate (args : PoolArgs) (tb : Table) : Th Ptr (Bytes × Bytes) := do
  share fun p => tb.heap[p]?
  note (.came tb.nodes)
  syscallExitCheck (← mrQueueInitCalls args.queueSize sizeofPtr) (cleanupHashTable tb)
  if !(← allocates .mtxInit) then
    mrLogError "Failed to initialize stdout mutex"
    cleanupHashTable tb
    returns exitFailure
  let threads ← mallocArray args.threads sizeofThrd
  let tArgs ← mallocArray args.threads sizeofThreadArg
  match threads, tArgs with
  | some threads, some tArgs => return (threads, tArgs)
  | _, _ =>
    mrLogError "Failed to allocate memory for reducer threads"
    cleanupHashTable tb
    returns exitFailure

/-- `reducer_process_main`, from there on. -/
def reducerStart (args : PoolArgs) (tb : Table) (threads tArgs : Bytes) : Th Ptr ReducerPhase := do
  createWorkers (threadSlots threads tArgs) "Failed to create reducer worker thread %zu" (cleanupHashTable tb) 0
    args.threads
  pushBuckets args tb.heap.length tb.buckets
  syscallExitCheck (← mrQueueClose) (mrLogError "Failed to close queue")
  joinWorkers "Failed to join reducer worker thread %zu" "Reducer worker thread %zu exited with error code %d" 0
    args.threads
  syscallExitCheck
    (← mrLogInfo "Reducer process finished: %zu pairs received, %zu tokens processed, %zu results produced") (pure ())
  returns exitSuccess

/-- `reducer_process_main`, from the end of the collection on. -/
def reducerProcess (args : PoolArgs) (tb : Table) : Th Ptr ReducerPhase := do
  let (threads, tArgs) ← reducerAllocate args tb
  reducerStart args tb threads tArgs

/-- The end of a collection that has failed. There are no threads yet, and the process ends. -/
def collectionFailed : Th Ptr ReducerPhase := do
  mrLogError "Error during collection phase"
  returns exitFailure

/-- `reducer_process_main`: one iteration of the collection loop, and what follows the loop. -/
def reducerCollect (args : PoolArgs) (tb : Table) : Th Ptr ReducerPhase := do
  match ← receivePairFromMapper with
  | .pair token value =>
    note (.pair (cstr (token.getD [])) value)
    match ← collectPair tb token value with
    | none => collectionFailed
    | some tb => return .collect tb
  | .eof => reducerProcess args tb
  | .failed => collectionFailed

/-- `reducer_process_main`, up to its loop. -/
def reducerProcessMain : Th Ptr ReducerPhase := do
  syscallExitCheck (← mrLogInfo "Reducer process started with %zu threads and queue size %zu") (pure ())
  return .collect .empty

/-- The thread functions of the reducer process. -/
def reducerCode (args : PoolArgs) : ProcessCode Ptr ReducerPhase where
  main := reducerProcessMain
  worker := reducerWorker
  body
    | .collect tb => reducerCollect args tb
    | .work => reducerWork

/-- The reducer process. -/
def reducerSystem (args : PoolArgs) (stdin : Bytes) : Lts (Hosted Ptr ReducerPhase) (Act Tid Val) :=
  (reducerCode args).system args sizeofPtr stdin

end MrLib
